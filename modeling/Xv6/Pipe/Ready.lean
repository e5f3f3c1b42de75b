import Xv6.Pipe.Fifo

/-!
# Sleeping on a pipe

A reader should sleep only on an empty pipe with a writer left, and a writer
only on a full pipe with a reader left.  Every section keeps this but one: a
`pipewrite` that fills the buffer and then finds itself killed, or the read end
closed, returns -1 without `wakeup(&p->nread)`, and readers that went to sleep
when the buffer was empty stay asleep on a full one.
-/

namespace Xv6.Pipes

def Pipe.Readable (pipe : Pipe) : Prop :=
  0 < (pipe.contents PIPESIZE).length ∨ pipe.writeopen = false

def Pipe.Writable (pipe : Pipe) : Prop :=
  (pipe.contents PIPESIZE).length < PIPESIZE ∨ pipe.readopen = false

variable {Pid : Type}

/-- No process sleeps on a ready pipe. -/
structure Ready (s : System Pid) : Prop where
  readers : s.pipe.Readable → ∀ q, (s.pc q).onNread = false
  writers : s.pipe.Writable → ∀ q, (s.pc q).onNwrite = false

/-- No section of `pipewrite` is about to give up after filling the buffer
while a process sleeps on `&p->nread`. -/
def NoLostBytes (s : System Pid) : Action Pid → Prop
  | .run p _ => ∀ call i, s.pc p = .write call i →
      s.pipe.readopen = false ∨ s.killed p = true →
      PIPESIZE - (s.pipe.contents PIPESIZE).length < call.n.toNat - i →
      ∀ q, (s.pc q).onNread = false
  | _ => True

theorem ready_init (data : Nat → UInt8) : Ready (System.init Pid data) :=
  ⟨fun _ _ => rfl, fun _ _ => rfl⟩

/-! ## Who sleeps after a step -/

@[simp] theorem Pc.onNread_wakeNread (pc : Pc) : pc.wakeNread.onNread = false := by
  cases pc <;> rfl

@[simp] theorem Pc.onNwrite_wakeNread (pc : Pc) : pc.wakeNread.onNwrite = pc.onNwrite := by
  cases pc <;> rfl

@[simp] theorem Pc.onNwrite_wakeNwrite (pc : Pc) : pc.wakeNwrite.onNwrite = false := by
  cases pc <;> rfl

@[simp] theorem Pc.onNread_wakeNwrite (pc : Pc) : pc.wakeNwrite.onNread = pc.onNread := by
  cases pc <;> rfl

variable [DecidableEq Pid]

theorem awake_update {asleep : Pc → Bool} {pc : Pid → Pc} {p : Pid} {next : Pc}
    (awake : asleep next = false) (others : ∀ q, asleep (pc q) = false) (q : Pid) :
    asleep (Function.update pc p next q) = false := by
  by_cases here : q = p
  · subst here
    rw [Function.update_self, awake]
  · rw [Function.update_of_ne here, others q]

theorem Ready.move {s after : System Pid} (ready : Ready s) {p : Pid} {next : Pc}
    (pipe : after.pipe = s.pipe) (pc : after.pc = Function.update s.pc p next)
    (reads : next.onNread = false) (writes : next.onNwrite = false) : Ready after := by
  refine ⟨?_, ?_⟩
  · intro readable q
    rw [pc]
    exact awake_update reads (ready.readers (pipe ▸ readable)) q
  · intro writable q
    rw [pc]
    exact awake_update writes (ready.writers (pipe ▸ writable)) q

section Stores

variable {s : System Pid} {p : Pid} {call : WriteCall} {i : Nat}

omit [DecidableEq Pid] in
theorem Fifo.store_full (fifo : Fifo s) (stopped : (s.store call i).1 < call.n.toNat) :
    ((s.store call i).2.pipe.contents PIPESIZE).length = PIPESIZE := by
  have stores := fifo.stores call i
  rw [Circular.length_contents, Circular.count_eq_size PIPESIZE_lt]
  exact stores.full (by omega)

omit [DecidableEq Pid] in
theorem Fifo.length_store (fifo : Fifo s) (call : WriteCall) (i : Nat) :
    ((s.store call i).2.pipe.contents PIPESIZE).length =
      (s.pipe.contents PIPESIZE).length + ((s.store call i).1 - i) := by
  rw [(fifo.stores call i).contents]
  simp [bytesFrom]

omit [DecidableEq Pid] in
theorem Fifo.writable_store (fifo : Fifo s) (call : WriteCall) (i : Nat)
    (writable : (s.store call i).2.pipe.Writable) : s.pipe.Writable := by
  rcases writable with room | closed
  · rw [fifo.length_store] at room
    exact .inl (by omega)
  · exact .inr ((fifo.stores call i).readopen ▸ closed)

omit [DecidableEq Pid] in
theorem Fifo.store_stops (fifo : Fifo s) (control : s.pc p = .write call i) :
    (s.store call i).1 < call.n.toNat ↔
      PIPESIZE - (s.pipe.contents PIPESIZE).length < call.n.toNat - i := by
  have current := fifo.current p call i (by rw [control]; rfl)
  have length := fifo.length_store call i
  have stores := fifo.stores call i
  have lower := stores.lower
  have upper := stores.upper
  have bounded := stores.bounded
  rw [← Circular.length_contents PIPESIZE] at bounded
  refine ⟨?_, ?_⟩
  · intro stopped
    have full := fifo.store_full stopped
    omega
  · intro tooMany
    omega

end Stores

theorem Ready.step {s after : System Pid} {action : Action Pid} (ready : Ready s) (fifo : Fifo s)
    (allowed : NoLostBytes s action) (stepped : s.Step action after) : Ready after := by
  cases stepped with
  | write control => exact ready.move rfl rfl rfl rfl
  | read control => exact ready.move rfl rfl rfl rfl
  | @writeFails p call i late control full refused =>
    rw [(fifo.stores call i).readopen] at refused
    have nobody := allowed call i control refused ((fifo.store_stops control).mp full)
    refine ⟨fun _ => awake_update rfl nobody, ?_⟩
    intro writable
    exact awake_update rfl (ready.writers (fifo.writable_store call i writable))
  | @writeSleeps p call i late killed control full readopen =>
    refine ⟨fun _ => awake_update rfl fun q => Pc.onNread_wakeNread _, ?_⟩
    rintro (room | closed)
    · have filled := fifo.store_full full
      simp only [System.setPc, System.wakeNread] at room
      omega
    · simp only [System.setPc, System.wakeNread, readopen] at closed
      contradiction
  | @writeEnds p call i late control all =>
    refine ⟨fun _ => awake_update rfl fun q => Pc.onNread_wakeNread _, ?_⟩
    intro writable
    have nobody := ready.writers (fifo.writable_store call i writable)
    exact awake_update rfl fun q => (Pc.onNwrite_wakeNread _).trans (nobody q)
  | readFails control => exact ready.move rfl rfl rfl rfl
  | @readSleeps p n late killed control empty writeopen =>
    refine ⟨?_, fun writable => awake_update rfl (ready.writers writable)⟩
    rintro (bytes | closed)
    · have none : s.pipe.contents PIPESIZE = [] := Circular.contents_eq_nil.mpr empty
      simp only [System.setPc] at bytes
      rw [none] at bytes
      contradiction
    · simp only [System.setPc, writeopen] at closed
      contradiction
  | @readEnds p n late control something =>
    have copies := copyLoop_copies n.toNat s.pipe
    refine ⟨?_, fun _ => awake_update rfl fun q => Pc.onNwrite_wakeNwrite _⟩
    intro readable
    have readableBefore : s.pipe.Readable := by
      rcases readable with bytes | closed
      · refine .inl ?_
        rw [copies.contents, List.length_append]
        exact Nat.lt_of_lt_of_le bytes (Nat.le_add_left _ _)
      · exact .inr (copies.writeopen ▸ closed)
    exact awake_update rfl fun q =>
      (Pc.onNread_wakeNwrite _).trans (ready.readers readableBefore q)
  | @close writable =>
    cases writable with
    | false =>
      refine ⟨?_, fun _ q => Pc.onNwrite_wakeNwrite _⟩
      intro readable q
      exact (Pc.onNread_wakeNwrite _).trans (ready.readers readable q)
    | true =>
      refine ⟨fun _ q => Pc.onNread_wakeNread _, ?_⟩
      intro writable q
      exact (Pc.onNwrite_wakeNread _).trans (ready.writers writable q)
  | kill => exact ready.move rfl rfl (by simp) (by simp)

/-- The condition is exact: a step that breaks it leaves a reader asleep on a
full buffer. -/
theorem Ready.noLostBytes {s after : System Pid} {action : Action Pid} (fifo : Fifo s)
    (ready : Ready after) (stepped : s.step action = some after) : NoLostBytes s action := by
  cases action with
  | run p late =>
    intro call i control refused tooMany q
    have full := (fifo.store_stops control).mpr tooMany
    have refusedThen : (s.store call i).2.pipe.readopen = false ∨
        (s.store call i).2.killed p = true := by
      rw [(fifo.stores call i).readopen]
      exact refused
    have given : after = (s.store call i).2.returnWrite p call (-1) := by
      unfold System.step at stepped
      split at stepped
      · contradiction
      · simp only [control, System.pipewrite, if_pos full, if_pos refusedThen] at stepped
        exact (Option.some.inj stepped).symm
    have bytes : after.pipe.Readable := by
      refine .inl ?_
      have filled := fifo.store_full full
      rw [given]
      change 0 < ((s.store call i).2.pipe.contents PIPESIZE).length
      rw [filled]
      decide
    have awake := ready.readers bytes q
    by_cases here : q = p
    · rw [here, control]
      rfl
    · rw [given] at awake
      simpa [System.returnWrite, System.setPc, System.store, here] using awake
  | _ => trivial

theorem System.Reachable.ready {data : Nat → UInt8} {s : System Pid}
    (run : System.Reachable data NoLostBytes s) : Fifo s ∧ Ready s := by
  refine Transition.Reachable.invariant (fun s => Fifo s ∧ Ready s)
    ⟨fifo_init data, ready_init data⟩ ?_ run
  rintro before action after ⟨fifo, ready⟩ allowed stepped
  have taken := System.step_cases stepped
  exact ⟨fifo.step taken, ready.step fifo allowed taken⟩

/-- In every run in which no `pipewrite` gives up after filling the buffer
while a process sleeps on `&p->nread`, no process sleeps on a ready pipe; and
any other step from a state of such a run breaks this. -/
theorem no_sleep_on_ready_pipe (data : Nat → UInt8) {s : System Pid}
    (run : System.Reachable data NoLostBytes s) :
    ((0 < (s.pipe.contents PIPESIZE).length ∨ s.pipe.writeopen = false) →
      ∀ p n, s.pc p ≠ .readSleep n) ∧
    (((s.pipe.contents PIPESIZE).length < PIPESIZE ∨ s.pipe.readopen = false) →
      ∀ p call i, s.pc p ≠ .writeSleep call i) ∧
    (∀ action after, s.step action = some after → (Ready after ↔ NoLostBytes s action)) := by
  rcases System.Reachable.ready run with ⟨fifo, ready⟩
  refine ⟨?_, ?_, ?_⟩
  · intro readable p n asleep
    have awake := ready.readers readable p
    rw [asleep] at awake
    contradiction
  · intro writable p call i asleep
    have awake := ready.writers writable p
    rw [asleep] at awake
    contradiction
  · intro action after stepped
    exact ⟨fun readyAfter => readyAfter.noLostBytes fifo stepped,
      fun allowed => ready.step fifo allowed (System.step_cases stepped)⟩

/-- A writer fills the pipe, leaves bytes over and sleeps; the reader it has
woken is not asleep. -/
theorem no_sleep_on_ready_pipe_full : ∃ s : System (Fin 2),
    System.Reachable (fun _ => 0) NoLostBytes s ∧
    (s.pipe.contents PIPESIZE).length = PIPESIZE ∧ ∀ p n, s.pc p ≠ .readSleep n := by
  have found : ∃ s : System (Fin 2), System.Reachable (fun _ => 0) NoLostBytes s ∧
      (s.pipe.contents PIPESIZE).length = PIPESIZE := by
    refine Transition.Reachable.exists_of_run
      (fun s action => match action with
        | .run p _ => s.pipe.readopen && !s.killed p
        | _ => true) ?_ _
      [.read 0 1, .run 0 false, .write 1 (fun _ => 0) 513, .run 1 false] (by decide +kernel)
    intro s action checked
    cases action with
    | run p late =>
      simp only [Bool.and_eq_true, Bool.not_eq_true'] at checked
      intro call i _ refused
      simp [checked] at refused
    | _ => trivial
  rcases found with ⟨s, run, full⟩
  exact ⟨s, run, full, (no_sleep_on_ready_pipe _ run).1 (.inl (by rw [full]; decide))⟩

/-- The bytes of a writer that is killed in the middle of a long write: the
reader stays asleep on a full pipe. -/
theorem sleep_on_full_pipe : ∃ s : System (Fin 2), System.Run (fun _ => 0) s ∧
    (s.pipe.contents PIPESIZE).length = PIPESIZE ∧ (s.pc 0).onNread = true :=
  Transition.Reachable.exists_of_run (fun _ _ => true) (fun _ _ _ => trivial)
    (fun s : System (Fin 2) => (s.pipe.contents PIPESIZE).length = PIPESIZE ∧
      (s.pc 0).onNread = true)
    [.read 0 1, .run 0 false, .write 1 (fun _ => 0) 513, .kill 1, .run 1 false]
    (by decide +kernel)

end Xv6.Pipes
