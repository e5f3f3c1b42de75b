import Xv6.Ide.Queue

/-!
# The drive as a synchronous disk

The specification is a machine whose processes call `iderw` of `memide.c`: the
call takes effect in one step, some time before it returns.  `System.view` reads
a state of `ide.c` as a state of that machine.  The step in which the drive
completes a command is the step in which the call takes effect; the transfer in
`ideintr`, the queue and the sleeping are invisible.
-/

open Function (update update_eq_self update_of_ne update_self)

namespace Xv6.Ide

open Bio

variable {Pid : Type}

/-! ## Specification -/

inductive SyncPc where
  | out
  | calling (b : BufId)
  | done (b : BufId)

@[ext]
structure Sync (Pid : Type) where
  buf : BufId → Buf
  disk : Disk
  holder : BufId → Option Pid
  pc : Pid → SyncPc

def Sync.init (Pid : Type) (disk : Disk) : Sync Pid where
  buf _ := initBuf
  disk := disk
  holder _ := none
  pc _ := .out

inductive SyncAction (Pid : Type) where
  | take (p : Pid) (b : BufId) (blockno : Nat) (valid dirty : Bool) (data : Block)
  | change (p : Pid) (b : BufId) (valid dirty : Bool) (data : Block)
  | drop (p : Pid) (b : BufId)
  | call (p : Pid) (b : BufId)
  | execute (p : Pid)
  | ret (p : Pid)

section Specification

variable [DecidableEq Pid]

def Sync.setPc (a : Sync Pid) (p : Pid) (pc : SyncPc) : Sync Pid :=
  { a with pc := update a.pc p pc }

def Sync.step (a : Sync Pid) : SyncAction Pid → Option (Sync Pid)
  | .take p b blockno valid dirty data => match a.pc p, a.holder b with
      | .out, none => if blockno < FSSIZE then
          some { a with
            holder := update a.holder b (some p)
            buf := update a.buf b ⟨true, valid, dirty, 1, blockno, data⟩ }
          else none
      | _, _ => none
  | .change p b valid dirty data => match a.pc p with
      | .out => if a.holder b = some p then
          some { a with
            buf := update a.buf b
              { a.buf b with valid := valid, dirty := dirty, data := data } }
          else none
      | _ => none
  | .drop p b => match a.pc p with
      | .out => if a.holder b = some p then
          some { a with
            holder := update a.holder b none
            buf := update a.buf b { a.buf b with busy := false } }
          else none
      | _ => none
  | .call p b => match a.pc p with
      | .out => if a.holder b = some p then some (a.setPc p (.calling b)) else none
      | _ => none
  | .execute p => match a.pc p with
      | .calling b => (memIderw FSSIZE (a.buf b) a.disk).map fun (buf, disk) =>
        { a with
          buf := update a.buf b buf
          disk := disk
          pc := update a.pc p (.done b) }
      | _ => none
  | .ret p => match a.pc p with
      | .done _ => some (a.setPc p .out)
      | _ => none

end Specification

/-! ## Refinement map -/

/-- A buffer as its holder will see it: the first of the queue has received its
data as soon as the drive is done. -/
def System.shown (s : System Pid) (b : BufId) : Buf :=
  match s.status with
  | .done data => if s.idequeue = some b then s.received b data else s.buf b
  | _ => s.buf b

def Pc.view (buf : BufId → Buf) : Pc → SyncPc
  | .out => .out
  | .entered b | .asleep b | .woken b =>
    if (buf b).valid && !(buf b).dirty then .done b else .calling b

def System.view (s : System Pid) : Sync Pid where
  buf := s.shown
  disk := s.medium
  holder := s.holder
  pc p := (s.pc p).view s.shown

/-- The step of the specification that an action amounts to, if any. -/
def System.viewAction (s : System Pid) : Action Pid → Option (SyncAction Pid)
  | .take p b blockno valid dirty data => some (.take p b blockno valid dirty data)
  | .change p b valid dirty data => some (.change p b valid dirty data)
  | .drop p b => some (.drop p b)
  | .call p b => some (.call p b)
  | .complete => (s.idequeue.bind s.holder).map .execute
  | .resume p => match s.pc p with
      | .woken b => if (s.buf b).valid && !(s.buf b).dirty then some (.ret p) else none
      | _ => none
  | .enqueue _ | .ideintr | .rouse _ => none

section Simulation

variable {s : System Pid} {queue : List BufId} {p : Pid} {b : BufId}

theorem Ordered.head_mem (ordered : Ordered s queue) (first : s.idequeue = some b) : b ∈ queue := by
  have chain := ordered.chain
  cases queue with
  | nil =>
    have empty : s.idequeue = none := chain
    rw [empty] at first
    cases first
  | cons c rest =>
    have same : s.idequeue = some c := chain.1
    rw [same] at first
    rw [Option.some.inj first]
    exact List.mem_cons_self

theorem Ordered.shown_eq (ordered : Ordered s queue) (absent : b ∉ queue) :
    s.shown b = s.buf b := by
  unfold System.shown
  split
  · exact if_neg fun first => absent (ordered.head_mem first)
  · rfl

theorem shown_eq_buf (busy : ∀ data, s.status ≠ .done data) : s.shown = s.buf := by
  funext b
  unfold System.shown
  split
  next data done =>
    exact absurd done (busy data)
  · rfl

theorem view_todo {buf : BufId → Buf} (todo : Todo (buf b)) :
    (if (buf b).valid && !(buf b).dirty then SyncPc.done b else .calling b) = .calling b := by
  refine if_neg ?_
  unfold Todo at todo
  simpa using todo

theorem view_done {buf : BufId → Buf} (finished : (buf b).valid = true ∧ (buf b).dirty = false) :
    (if (buf b).valid && !(buf b).dirty then SyncPc.done b else .calling b) = .done b := by
  refine if_pos ?_
  rw [finished.1, finished.2]
  rfl

theorem Pc.view_congr {pc : Pc} {buf buf' : BufId → Buf}
    (agree : ∀ b, pc = .entered b ∨ pc = .asleep b ∨ pc = .woken b → buf' b = buf b) :
    pc.view buf' = pc.view buf := by
  cases pc with
  | out => rfl
  | entered b => rw [Pc.view, Pc.view, agree b (.inl rfl)]
  | asleep b => rw [Pc.view, Pc.view, agree b (.inr (.inl rfl))]
  | woken b => rw [Pc.view, Pc.view, agree b (.inr (.inr rfl))]

theorem Pc.view_wakeup (pc : Pc) (buf : BufId → Buf) : (pc.wakeup b).view buf = pc.view buf := by
  cases pc with
  | asleep chan =>
    rw [Pc.wakeup]
    split <;> rfl
  | out => rfl
  | entered chan => rfl
  | woken chan => rfl

theorem Ordered.holder_of_inside (ordered : Ordered s queue)
    (inside : s.pc p = .entered b ∨ s.pc p = .asleep b ∨ s.pc p = .woken b) :
    s.holder b = some p := by
  rcases inside with early | late
  · exact (ordered.entered p b early).1
  · exact (ordered.inside p b late).1

theorem Ordered.view_rebuf (ordered : Ordered s queue)
    (idle : ∀ q, s.holder b = some q → s.pc q = .out) (buf : Buf) (holder : BufId → Option Pid) :
    System.view { s with holder := holder, buf := update s.buf b buf } =
      { s.view with holder := holder, buf := update s.shown b buf } := by
  have absent := ordered.not_queued idle
  have shown : System.shown { s with holder := holder, buf := update s.buf b buf } =
      update s.shown b buf := by
    funext c
    by_cases here : c = b
    · subst here
      rw [update_self]
      unfold System.shown
      dsimp only
      split
      · rw [if_neg fun first => absent (ordered.head_mem first), update_self]
      · rw [update_self]
    · rw [update_of_ne here]
      simp only [System.shown, System.received, update_of_ne here]
  unfold System.view
  rw [shown]
  congr 1
  funext q
  refine Pc.view_congr fun c inside => update_of_ne ?_ _ _
  exact ordered.not_inside idle inside

variable [DecidableEq Pid]

theorem view_setPc (pc : Pc) : (s.setPc p pc).view = s.view.setPc p (pc.view s.shown) := by
  refine Sync.ext rfl rfl rfl ?_
  funext q
  dsimp only [System.view, Sync.setPc]
  by_cases here : q = p
  · subst here
    rw [s.setPc_pc_self, update_self]
    rfl
  · rw [s.setPc_pc_ne pc here, update_of_ne here]
    rfl

theorem Sync.setPc_self {a : Sync Pid} {pc : SyncPc} (same : pc = a.pc p) : a.setPc p pc = a := by
  unfold Sync.setPc
  rw [same, update_eq_self]

theorem Ordered.view_enqueue (ordered : Ordered s queue) (here : s.pc p = .entered b)
    {after : System Pid} (stepped : s.enqueue p b = some after) : after.view = s.view := by
  rw [ordered.enqueue_eq here] at stepped
  cases stepped
  have shown : System.shown { s with
      qnext := (s.append b).qnext
      idequeue := (s.append b).idequeue
      pc := update s.pc p (.asleep b)
      status := if queue = [] then .running (commandOf (s.buf b)) else s.status
      issued := s.issued ++ [b]
      started := if queue = [] then s.started ++ [b] else s.started } = s.shown := by
    cases queue with
    | nil =>
      have idle : s.status = .idle := ordered.serves
      rw [shown_eq_buf (s := s) (by rw [idle]; exact fun _ => nofun)]
      exact shown_eq_buf fun _ => nofun
    | cons c rest =>
      have first : s.idequeue = some c := ordered.chain.1
      have kept : (s.append b).idequeue = s.idequeue := by
        unfold System.append
        rw [first]
      funext d
      unfold System.shown
      dsimp only
      rw [if_neg (List.cons_ne_nil c rest), kept]
      rfl
  refine Sync.ext shown rfl rfl ?_
  funext q
  dsimp only [System.view]
  rw [shown]
  by_cases self : q = p
  · subst self
    rw [update_self, here]
    rfl
  · rw [update_of_ne self]

theorem Ordered.view_complete (ordered : Ordered s queue) {command : Command}
    (busy : s.status = .running command) :
    ∃ b p, s.idequeue = some b ∧ s.holder b = some p ∧
      s.view.step (.execute p) = some (s.complete command).view := by
  obtain ⟨b, rest, rfl, rfl⟩ := ordered.running busy
  obtain ⟨p, holds, waiting⟩ := ordered.waits b List.mem_cons_self
  have first : s.idequeue = some b := ordered.chain.1
  refine ⟨b, p, first, holds, ?_⟩
  obtain ⟨held, device, inside⟩ := ordered.held b p holds
  have todo := ordered.todo b List.mem_cons_self
  have before : s.shown = s.buf := shown_eq_buf (by rw [busy]; exact fun _ => nofun)
  have calling : s.view.pc p = .calling b := by
    dsimp only [System.view]
    rw [before]
    rcases waiting with here | here <;> rw [here] <;> exact view_todo todo
  -- what `memide.c` does to the buffer and the disk is what the drive and
  -- `ideintr` do together
  obtain ⟨data, executed, after⟩ : ∃ data,
      memIderw FSSIZE (s.buf b) s.medium =
        some (s.received b data, (s.complete (commandOf (s.buf b))).medium) ∧
      s.complete (commandOf (s.buf b)) = { s with
        status := .done data, medium := (s.complete (commandOf (s.buf b))).medium } := by
    have pending : ((s.buf b).valid && !(s.buf b).dirty) = false := by
      unfold Todo at todo
      simpa using todo
    unfold memIderw commandOf
    rw [if_neg (by rw [held]; decide), if_neg (by rw [pending]; decide),
      if_neg (not_not.mpr device), if_neg (Nat.not_le.mpr inside)]
    cases dirty : (s.buf b).dirty with
    | true => exact ⟨none, by simp [System.complete, System.received, dirty], rfl⟩
    | false => exact ⟨some (s.medium (s.buf b).blockno),
        by simp [System.complete, System.received, dirty], rfl⟩
  have shown : (s.complete (commandOf (s.buf b))).shown = update s.buf b (s.received b data) := by
    rw [after]
    funext c
    unfold System.shown
    dsimp only
    rw [first]
    by_cases here : c = b
    · subst here
      rw [if_pos rfl, update_self]
      rfl
    · rw [if_neg fun same => here (Option.some.inj same).symm, update_of_ne here]
  have dones : (update s.buf b (s.received b data) b).valid = true ∧
      (update s.buf b (s.received b data) b).dirty = false := by
    rw [update_self]
    exact received_done b data
  have result : (s.complete (commandOf (s.buf b))).view = { s.view with
      buf := update s.view.buf b (s.received b data)
      disk := (s.complete (commandOf (s.buf b))).medium
      pc := update s.view.pc p (.done b) } := by
    refine Sync.ext ?_ rfl ?_ ?_
    · dsimp only [System.view]
      rw [shown, before]
    · dsimp only [System.view]
      rw [after]
    · funext q
      dsimp only [System.view]
      rw [shown, before, after]
      dsimp only
      by_cases self : q = p
      · subst self
        rw [update_self]
        rcases waiting with here | here <;> rw [here] <;> exact view_done dones
      · rw [update_of_ne self]
        refine Pc.view_congr fun c late => update_of_ne ?_ _ _
        rintro rfl
        have holdsToo := ordered.holder_of_inside late
        rw [holds] at holdsToo
        exact self (Option.some.inj holdsToo).symm
  dsimp only [Sync.step]
  rw [calling]
  dsimp only
  rw [show s.view.buf b = s.buf b from congrFun before b,
    show s.view.disk = s.medium from rfl, executed, Option.map_some, result]

omit [DecidableEq Pid] in
theorem Ordered.view_ideintr {rest : List BufId} (ordered : Ordered s (b :: rest))
    {data : Option Block} (done : s.status = .done data) {after : System Pid}
    (stepped : s.ideintr data = some after) :
    after.view = s.view := by
  have first : s.idequeue = some b := ordered.chain.1
  rw [ordered.ideintr_eq data] at stepped
  cases stepped
  have before : s.shown = update s.buf b (s.received b data) := by
    funext c
    unfold System.shown
    rw [done, first]
    dsimp only
    by_cases here : c = b
    · subst here
      rw [if_pos rfl, update_self]
    · rw [if_neg fun same => here (Option.some.inj same).symm, update_of_ne here]
  have shown : System.shown { s with
      idequeue := s.qnext b
      buf := update s.buf b (s.received b data)
      pc := fun p => (s.pc p).wakeup b
      status := rest.head?.elim .idle fun c => .running (commandOf (s.buf c))
      started := s.started ++ rest.take 1 } = s.shown := by
    rw [before]
    refine shown_eq_buf ?_
    cases rest <;> exact fun _ => nofun
  refine Sync.ext shown rfl rfl ?_
  funext q
  dsimp only [System.view]
  rw [shown]
  exact Pc.view_wakeup _ _

/-- Each step of `ide.c` is one step of the specification, or none. -/
theorem Ordered.view_step (ordered : Ordered s queue) {action : Action Pid} {after : System Pid}
    (stepped : Ide.step s action = some after) :
    (s.viewAction action).elim (after.view = s.view)
      fun spec => s.view.step spec = some after.view := by
  cases action with
  | take p b blockno valid dirty data =>
    simp only [Ide.step, Option.ite_none_right_eq_some, Option.some.injEq] at stepped
    obtain ⟨⟨out, free, inside⟩, rfl⟩ := stepped
    have moved := ordered.view_rebuf (b := b) (fun q holds => by rw [free] at holds; cases holds)
      ⟨true, valid, dirty, 1, blockno, data⟩ (update s.holder b (some p))
    dsimp only [System.viewAction, Option.elim_some]
    rw [moved]
    dsimp only [Sync.step]
    rw [show s.view.pc p = .out from congrArg (Pc.view s.shown) out,
      show s.view.holder b = none from free]
    exact if_pos inside
  | change p b valid dirty data =>
    simp only [Ide.step, Option.ite_none_right_eq_some, Option.some.injEq] at stepped
    obtain ⟨uses, rfl⟩ := stepped
    have moved := ordered.view_rebuf (Uses.idle uses) { s.buf b with valid, dirty, data } s.holder
    have same : s.view.buf b = s.buf b := ordered.shown_eq (ordered.not_queued (Uses.idle uses))
    dsimp only [System.viewAction, Option.elim_some]
    rw [moved]
    dsimp only [Sync.step]
    rw [show s.view.pc p = .out from congrArg (Pc.view s.shown) uses.1, same]
    exact if_pos uses.2
  | drop p b =>
    simp only [Ide.step, Option.ite_none_right_eq_some, Option.some.injEq] at stepped
    obtain ⟨uses, rfl⟩ := stepped
    have moved := ordered.view_rebuf (Uses.idle uses) { s.buf b with busy := false }
      (update s.holder b none)
    have same : s.view.buf b = s.buf b := ordered.shown_eq (ordered.not_queued (Uses.idle uses))
    dsimp only [System.viewAction, Option.elim_some]
    rw [moved]
    dsimp only [Sync.step]
    rw [show s.view.pc p = .out from congrArg (Pc.view s.shown) uses.1, same]
    exact if_pos uses.2
  | call p b =>
    simp only [Ide.step, Option.ite_none_right_eq_some, Option.ite_none_left_eq_some,
      Option.some.injEq] at stepped
    obtain ⟨uses, -, todo, rfl⟩ := stepped
    have same : s.shown b = s.buf b := ordered.shown_eq (ordered.not_queued (Uses.idle uses))
    have calling : Pc.view s.shown (.entered b) = .calling b :=
      view_todo (by rw [same]; unfold Todo; simpa using todo)
    dsimp only [System.viewAction, Option.elim_some]
    rw [view_setPc, calling]
    dsimp only [Sync.step]
    rw [show s.view.pc p = .out from congrArg (Pc.view s.shown) uses.1]
    exact if_pos uses.2
  | enqueue p =>
    dsimp only [Ide.step] at stepped
    split at stepped
    next b here =>
      exact ordered.view_enqueue here stepped
    · cases stepped
  | complete =>
    dsimp only [Ide.step] at stepped
    split at stepped
    next command busy =>
      cases stepped
      obtain ⟨b, p, first, holds, executed⟩ := ordered.view_complete busy
      dsimp only [System.viewAction]
      rw [first, Option.bind_some, holds]
      exact executed
    · cases stepped
  | ideintr =>
    dsimp only [Ide.step] at stepped
    split at stepped
    next data done =>
      obtain ⟨b, rest, rfl, -⟩ := ordered.finished done
      exact ordered.view_ideintr done stepped
    · cases stepped
  | rouse p =>
    dsimp only [Ide.step] at stepped
    split at stepped
    next b here =>
      cases stepped
      change (s.setPc p (.woken b)).view = s.view
      rw [view_setPc]
      refine Sync.setPc_self ?_
      dsimp only [System.view]
      rw [here]
      rfl
    · cases stepped
  | resume p =>
    dsimp only [Ide.step] at stepped
    split at stepped
    next b here =>
      cases stepped
      have same : s.view.pc p = if (s.shown b).valid && !(s.shown b).dirty then .done b
          else .calling b := by
        dsimp only [System.view]
        rw [here]
        rfl
      unfold System.await
      rw [view_setPc]
      dsimp only [System.viewAction]
      rw [here]
      dsimp only
      by_cases finished : ((s.buf b).valid && !(s.buf b).dirty) = true
      · have absent : b ∉ queue := fun among => ordered.todo b among (by simpa using finished)
        rw [if_pos finished, if_pos finished, Option.elim_some]
        rw [ordered.shown_eq absent, if_pos finished] at same
        dsimp only [Sync.step]
        rw [same]
        rfl
      · rw [if_neg finished, if_neg finished, Option.elim_none]
        exact Sync.setPc_self same.symm
    · cases stepped

omit [DecidableEq Pid] in
theorem view_init (medium : Disk) : (System.init Pid medium).view = Sync.init Pid medium := rfl

/-! ## Return -/

theorem Ordered.returns (ordered : Ordered s queue) {action : Action Pid} {after : System Pid}
    (stepped : Ide.step s action = some after)
    (inside : s.pc p = .entered b ∨ s.pc p = .asleep b ∨ s.pc p = .woken b)
    (out : after.pc p = .out) :
    (s.buf b).valid = true ∧ (s.buf b).dirty = false ∧ after = s.setPc p .out := by
  have within : s.pc p ≠ .out := by
    rintro early
    rw [early] at inside
    rcases inside with absurdity | absurdity | absurdity <;> cases absurdity
  -- the steps that leave `p` where it is
  have same (kept : after.pc p = s.pc p) : False := within (kept ▸ out)
  have other {q : Pid} {pc : Pc} (moved : after = s.setPc q pc) (leaves : pc ≠ .out) : False := by
    subst moved
    by_cases self : p = q
    · subst self
      rw [s.setPc_pc_self] at out
      exact leaves out
    · exact same (s.setPc_pc_ne pc self)
  cases action with
  | take q c blockno valid dirty data =>
    simp only [Ide.step, Option.ite_none_right_eq_some, Option.some.injEq] at stepped
    exact (same (by rw [← stepped.2])).elim
  | change q c valid dirty data =>
    simp only [Ide.step, Option.ite_none_right_eq_some, Option.some.injEq] at stepped
    exact (same (by rw [← stepped.2])).elim
  | drop q c =>
    simp only [Ide.step, Option.ite_none_right_eq_some, Option.some.injEq] at stepped
    exact (same (by rw [← stepped.2])).elim
  | call q c =>
    simp only [Ide.step, Option.ite_none_right_eq_some, Option.ite_none_left_eq_some,
      Option.some.injEq] at stepped
    exact (other stepped.2.2.2.symm (by rintro ⟨⟩)).elim
  | enqueue q =>
    dsimp only [Ide.step] at stepped
    split at stepped
    next c here =>
      rw [ordered.enqueue_eq here] at stepped
      cases stepped
      dsimp only at out
      by_cases self : p = q
      · subst self
        rw [update_self] at out
        cases out
      · rw [update_of_ne self] at out
        exact absurd out within
    · cases stepped
  | complete =>
    dsimp only [Ide.step] at stepped
    split at stepped
    next command busy =>
      cases stepped
      exact (same (by cases command <;> rfl)).elim
    · cases stepped
  | ideintr =>
    dsimp only [Ide.step] at stepped
    split at stepped
    next data done =>
      obtain ⟨c, rest, rfl, -⟩ := ordered.finished done
      rw [ordered.ideintr_eq data] at stepped
      cases stepped
      refine absurd ?_ within
      cases here : s.pc p with
      | asleep chan =>
        dsimp only at out
        rw [here, Pc.wakeup] at out
        split at out <;> cases out
      | out => rfl
      | entered chan =>
        dsimp only at out
        rw [here] at out
        cases out
      | woken chan =>
        dsimp only at out
        rw [here] at out
        cases out
    · cases stepped
  | rouse q =>
    dsimp only [Ide.step] at stepped
    split at stepped
    · cases stepped
      exact (other rfl (by rintro ⟨⟩)).elim
    · cases stepped
  | resume q =>
    dsimp only [Ide.step] at stepped
    split at stepped
    next c here =>
      cases stepped
      unfold System.await at out other ⊢
      by_cases finished : ((s.buf c).valid && !(s.buf c).dirty) = true
      · rw [if_pos finished] at out ⊢
        by_cases self : p = q
        · subst self
          rw [here] at inside
          rcases inside with absurdity | absurdity | same
          · cases absurdity
          · cases absurdity
          · cases same
            simp only [Bool.and_eq_true, Bool.not_eq_true'] at finished
            exact ⟨finished.1, finished.2, rfl⟩
        · rw [s.setPc_pc_ne _ self] at out
          exact absurd out within
      · rw [if_neg finished] at other
        exact (other rfl (by rintro ⟨⟩)).elim
    · cases stepped

theorem Run.view_reachable {medium : Disk} (run : Run medium s) :
    Transition.Reachable Sync.step (fun _ _ => True) (Sync.init Pid medium) s.view := by
  have simulated : ∃ spec,
      Transition.Reachable Sync.step (fun _ _ => True) (Sync.init Pid medium) spec ∧
      (∃ queue, Ordered s queue) ∧ spec = s.view := by
    refine run.simulates (fun s spec => (∃ queue, Ordered s queue) ∧ spec = s.view)
      ⟨⟨[], ordered_init medium⟩, (view_init medium).symm⟩ ?_
    rintro before action after spec ⟨⟨queue, ordered⟩, rfl⟩ - stepped
    refine ⟨after.view, ⟨ordered.step stepped, rfl⟩, ?_⟩
    have matched := ordered.view_step stepped
    cases act : before.viewAction action with
    | none =>
      rw [act] at matched
      exact .inl matched
    | some spec =>
      rw [act] at matched
      exact .inr ⟨spec, matched⟩
  obtain ⟨spec, reached, -, rfl⟩ := simulated
  exact reached

/-- `ide.c` refines `memide.c`, in every state of every run: the buffers issued
and not completed are the queue, the drive has been started once for each of the
others and for its first one, in order, and works for it alone; the state reads
as one the specification reaches, its next step as one of the specification or
none, and what a returning `iderw` leaves is what the specification shows.  The
driver does not panic: an interrupt takes the first buffer off the queue, starts the drive for
the next and wakes the process that waits for the first. -/
theorem iderw_refines {medium : Disk} (run : Run medium s) :
    (∃ queue finished, Chain some s.qnext none s.idequeue queue ∧ queue.Nodup ∧ Serves s queue ∧
      s.issued = finished ++ queue ∧ s.started = finished ++ queue.take 1) ∧
    Transition.Reachable Sync.step (fun _ _ => True) (Sync.init Pid medium) s.view ∧
    (∀ action after, step s action = some after →
      ((s.viewAction action).elim (after.view = s.view)
        fun spec => s.view.step spec = some after.view) ∧
      ∀ p b, s.pc p = .entered b ∨ s.pc p = .asleep b ∨ s.pc p = .woken b → after.pc p = .out →
        (after.buf b).valid = true ∧ (after.buf b).dirty = false ∧
        s.view.pc p = .done b ∧ after.buf b = s.view.buf b ∧ after.medium = s.view.disk) ∧
    (∀ p b, s.pc p = .entered b → (step s (.enqueue p)).isSome) ∧
    ∀ data, s.status = .done data → ∃ b rest after,
      Chain some s.qnext none s.idequeue (b :: rest) ∧ step s .ideintr = some after ∧
      Chain some after.qnext none after.idequeue rest ∧ after.started = s.started ++ rest.take 1 ∧
      (after.buf b).valid = true ∧ (after.buf b).dirty = false ∧
      ∀ p, s.pc p = .asleep b → after.pc p = .woken b := by
  obtain ⟨queue, ordered⟩ := run.ordered
  refine ⟨?_, ?_, ?_, ?_, ?_⟩
  · obtain ⟨finished, issued, started⟩ := ordered.history
    exact ⟨queue, finished, ordered.chain, ordered.nodup, ordered.serves, issued, started⟩
  · exact run.view_reachable
  · intro action after stepped
    refine ⟨ordered.view_step stepped, fun p b inside out => ?_⟩
    obtain ⟨valid, clean, rfl⟩ := ordered.returns stepped inside out
    have absent : b ∉ queue := fun among => ordered.todo b among ⟨valid, clean⟩
    have same : s.shown b = s.buf b := ordered.shown_eq absent
    refine ⟨valid, clean, ?_, same.symm, rfl⟩
    dsimp only [System.view]
    rcases inside with here | here | here <;> rw [here] <;>
      exact view_done (by rw [same]; exact ⟨valid, clean⟩)
  · intro p b here
    dsimp only [step]
    rw [here]
    dsimp only
    rw [ordered.enqueue_eq here]
    rfl
  · intro data done
    obtain ⟨b, rest, rfl, -⟩ := ordered.finished done
    have serviced := ordered.ideintr_eq data
    refine ⟨b, rest, _, ordered.chain, ?_, (ordered.ideintr serviced).chain, rfl, ?_, ?_,
      fun p waits => ?_⟩
    · dsimp only [step]
      rw [done]
      exact serviced
    · simp [System.received]
    · simp [System.received]
    · simp [waits, Pc.wakeup]

/-- Process 0 has returned from the write of block 3, and the drive works for process 1, which
came after it. -/
def HandedOn (first second : BufId) (s : System (Fin 2)) : Prop :=
  s.pc 0 = .out ∧ (s.buf first).valid = true ∧ (s.buf first).dirty = false ∧
    s.pc 1 = .asleep second ∧ s.idequeue = some second ∧ s.started = [first, second] ∧
    ∀ i, s.medium 3 i = 9

instance (first second : BufId) : DecidablePred (HandedOn first second) :=
  fun _ => inferInstanceAs (Decidable (_ ∧ _ ∧ _ ∧ _ ∧ _ ∧ _ ∧ _))

theorem iderw_refines_two : ∃ s : System (Fin 2), HandedOn ⟨4, by decide⟩ ⟨7, by decide⟩ s ∧
    Transition.Reachable Sync.step (fun _ _ => True) (Sync.init (Fin 2) fun _ _ => 0) s.view := by
  have found : ∃ s : System (Fin 2), Run (fun _ _ => 0) s ∧
      HandedOn ⟨4, by decide⟩ ⟨7, by decide⟩ s :=
    Transition.Reachable.exists_of_run (fun _ _ => true) (fun _ _ _ => trivial) _
      [.take 0 ⟨4, by decide⟩ 3 false true fun _ => 9,
        .take 1 ⟨7, by decide⟩ 5 false false fun _ => 0, .call 0 ⟨4, by decide⟩,
        .call 1 ⟨7, by decide⟩, .enqueue 0, .enqueue 1, .complete, .ideintr, .resume 0]
      (by decide +kernel)
  obtain ⟨s, run, holds⟩ := found
  exact ⟨s, holds, (iderw_refines run).2.1⟩

end Simulation

end Xv6.Ide
