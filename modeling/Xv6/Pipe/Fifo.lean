import Xv6.Pipe.Model

/-!
# Pipes are first-in first-out

The two loops are pushes and pops of the circular buffer, so a section of
`pipewrite` appends to its contents and a section of `piperead` takes from
their front.  What has been delivered and what is buffered is therefore always
what has been stored, and the bytes of one call are the ones its index says.
-/

open Function (update update_of_ne update_self)

namespace Xv6.Pipes

/-! ## The loops -/

theorem PIPESIZE_dvd : PIPESIZE ∣ 2 ^ 32 := by decide

theorem PIPESIZE_lt : PIPESIZE < 2 ^ 32 := by decide

def bytesFrom (addr : Nat → UInt8) (i k : Nat) : List UInt8 := (List.range' i k).map addr

/-- What the loop of `pipewrite` has done when it leaves off at byte `j`. -/
structure Stores (addr : Nat → UInt8) (left i : Nat) (pipe : Pipe) (j : Nat) (pipe' : Pipe) :
    Prop where
  lower : i ≤ j
  upper : j ≤ i + left
  bounded : pipe'.count ≤ PIPESIZE
  contents : pipe'.contents PIPESIZE = pipe.contents PIPESIZE ++ bytesFrom addr i (j - i)
  full : j < i + left → pipe'.Full PIPESIZE
  readopen : pipe'.readopen = pipe.readopen
  writeopen : pipe'.writeopen = pipe.writeopen

theorem storeLoop_stores (addr : Nat → UInt8) (left i : Nat) (pipe : Pipe)
    (bounded : pipe.count ≤ PIPESIZE) :
    Stores addr left i pipe (storeLoop addr left i pipe).1 (storeLoop addr left i pipe).2 := by
  induction left generalizing i pipe with
  | zero =>
    exact ⟨le_rfl, le_rfl, bounded, by simp [storeLoop, bytesFrom], by simp [storeLoop], rfl,
      rfl⟩
  | succ left ih =>
    unfold storeLoop
    split
    next full =>
      exact ⟨le_rfl, by omega, bounded, by simp [bytesFrom], fun _ => full, rfl, rfl⟩
    next notFull =>
      have room : pipe.count < PIPESIZE :=
        lt_of_le_of_ne bounded fun same => notFull ((Circular.count_eq_size PIPESIZE_lt).mp same)
      have rest := ih (i + 1)
        { pipe with toCircular := pipe.toCircular.push PIPESIZE (addr i) }
        (by rw [Circular.count_push (by have := PIPESIZE_lt; omega)]; exact room)
      have positive := rest.lower
      refine ⟨by omega, ?_, rest.bounded, ?_, ?_, rest.readopen, rest.writeopen⟩
      · have := rest.upper
        omega
      · have one : ∀ j, i + 1 ≤ j → bytesFrom addr i (j - i) =
            addr i :: bytesFrom addr (i + 1) (j - (i + 1)) := by
          intro j later
          rw [show j - i = (j - (i + 1)) + 1 by omega]
          rfl
        rw [rest.contents, Circular.contents_push PIPESIZE_dvd PIPESIZE_lt room,
          one _ positive, List.append_assoc, List.singleton_append]
      · intro early
        exact rest.full (by omega)

structure Copies (left : Nat) (pipe : Pipe) (bytes : List UInt8) (pipe' : Pipe) : Prop where
  contents : pipe.contents PIPESIZE = bytes ++ pipe'.contents PIPESIZE
  bounded : pipe'.count ≤ pipe.count
  short : bytes.length < left → pipe'.Empty
  readopen : pipe'.readopen = pipe.readopen
  writeopen : pipe'.writeopen = pipe.writeopen

theorem copyLoop_copies (left : Nat) (pipe : Pipe) :
    Copies left pipe (copyLoop left pipe).1 (copyLoop left pipe).2 := by
  induction left generalizing pipe with
  | zero => exact ⟨rfl, le_rfl, by simp [copyLoop], rfl, rfl⟩
  | succ left ih =>
    unfold copyLoop
    split
    next empty =>
      exact ⟨rfl, le_rfl, fun _ => empty, rfl, rfl⟩
    next notEmpty =>
      have some : 0 < pipe.count :=
        Nat.pos_of_ne_zero fun zero => notEmpty (Circular.count_eq_zero.mp zero)
      have rest := ih { pipe with toCircular := pipe.toCircular.drop }
      have fewer := Circular.count_drop some
      refine ⟨?_, ?_, ?_, rest.readopen, rest.writeopen⟩
      · rw [Circular.contents_drop PIPESIZE_dvd some, rest.contents]
        rfl
      · have := rest.bounded
        simp only at this ⊢
        omega
      · intro short
        exact rest.short (by simpa using short)

/-! ## What a step can do -/

section Steps

variable {Pid : Type} [DecidableEq Pid]

inductive System.Step (s : System Pid) : Action Pid → System Pid → Prop where
  | write {p addr n result} : s.pc p = .out result →
      Step s (.write p addr n)
        { s.setPc p (.write ⟨s.nextCall, addr, n⟩ 0) with nextCall := s.nextCall + 1 }
  | read {p n result} : s.pc p = .out result → Step s (.read p n) (s.setPc p (.read n))
  | writeFails {p call i late} : s.pc p = .write call i →
      (s.store call i).1 < call.n.toNat →
      (s.store call i).2.pipe.readopen = false ∨ (s.store call i).2.killed p = true →
      Step s (.run p late) ((s.store call i).2.returnWrite p call (-1))
  | writeSleeps {p call i late killed} : s.pc p = .write call i →
      (s.store call i).1 < call.n.toNat → (s.store call i).2.pipe.readopen = true →
      Step s (.run p late)
        { (s.store call i).2.wakeNread.setPc p (.writeSleep call (s.store call i).1) with
          killed := killed }
  | writeEnds {p call i late} : s.pc p = .write call i → call.n.toNat ≤ (s.store call i).1 →
      Step s (.run p late) ((s.store call i).2.wakeNread.returnWrite p call call.n)
  | readFails {p n late} : s.pc p = .read n →
      Step s (.run p late) (s.setPc p (.out (some (-1))))
  | readSleeps {p n late killed} : s.pc p = .read n → s.pipe.Empty → s.pipe.writeopen = true →
      Step s (.run p late) { s.setPc p (.readSleep n) with killed := killed }
  | readEnds {p n late} : s.pc p = .read n → ¬(s.pipe.Empty ∧ s.pipe.writeopen = true) →
      Step s (.run p late) ((s.copy n).2.wakeNwrite.setPc p (.out (some (s.copy n).1)))
  | close {writable} : Step s (.close writable) (s.pipeclose writable)
  | kill {p} : Step s (.kill p) (s.kill p)

theorem System.pipewrite_step {s : System Pid} {p : Pid} {call : WriteCall} {i : Nat}
    (control : s.pc p = .write call i) (late : Bool) :
    s.Step (.run p late) (s.pipewrite p call i late) := by
  unfold System.pipewrite
  dsimp only
  split
  next full =>
    split
    next refused =>
      exact .writeFails control full refused
    next accepted =>
      have readopen : (s.store call i).2.pipe.readopen = true := by
        simpa using fun closed => accepted (.inl closed)
      split
      · exact .writeSleeps control full readopen
      · exact .writeSleeps control full readopen
  next all =>
    exact .writeEnds control (Nat.not_lt.mp all)

theorem System.piperead_step {s : System Pid} {p : Pid} {n : Int} (control : s.pc p = .read n)
    (late : Bool) : s.Step (.run p late) (s.piperead p n late) := by
  unfold System.piperead
  dsimp only
  split
  next nothing =>
    split
    · exact .readFails control
    · split
      · exact .readSleeps control nothing.1 nothing.2
      · exact .readSleeps control nothing.1 nothing.2
  next something =>
    exact .readEnds control something

theorem System.step_cases {s after : System Pid} {action : Action Pid}
    (stepped : s.step action = some after) : s.Step action after := by
  unfold System.step at stepped
  split at stepped
  · contradiction
  cases action with
  | write p addr n =>
    cases control : s.pc p <;> simp only [control] at stepped <;> try contradiction
    cases stepped
    exact .write control
  | read p n =>
    cases control : s.pc p <;> simp only [control] at stepped <;> try contradiction
    cases stepped
    exact .read control
  | run p late =>
    cases control : s.pc p <;> simp only [control] at stepped <;> try contradiction
    · cases stepped
      exact System.pipewrite_step control late
    · cases stepped
      exact System.piperead_step control late
  | close writable =>
    cases stepped
    exact .close
  | kill p =>
    cases stepped
    exact .kill

end Steps

/-! ## The stream -/

/-- The call of `pipewrite` a process is in, and how far it is. -/
def Pc.call? : Pc → Option (WriteCall × Nat)
  | .write call i => some (call, i)
  | .writeSleep call i => some (call, i)
  | _ => none

@[simp] theorem Pc.call?_wakeNread (pc : Pc) : pc.wakeNread.call? = pc.call? := by
  cases pc <;> rfl

@[simp] theorem Pc.call?_wakeNwrite (pc : Pc) : pc.wakeNwrite.call? = pc.call? := by
  cases pc <;> rfl

def WriteCall.bytes (call : WriteCall) (k : Nat) : List UInt8 := bytesFrom call.addr 0 k

variable {Pid : Type}

def System.storedBy (s : System Pid) (number : Nat) : List UInt8 :=
  (s.stored.filter fun entry => entry.1 = number).map Prod.snd

/-- What has been delivered and what is buffered is what has been stored, and
every call has stored a first part of its bytes. -/
structure Fifo (s : System Pid) : Prop where
  bounded : s.pipe.count ≤ PIPESIZE
  stream : s.delivered ++ s.pipe.contents PIPESIZE = s.stored.map Prod.snd
  past : ∀ entry ∈ s.stored, entry.1 < s.nextCall
  current : ∀ p call i, (s.pc p).call? = some (call, i) → call.number < s.nextCall ∧
    i ≤ call.n.toNat ∧ s.storedBy call.number = call.bytes i
  alone : ∀ p q call i other j, (s.pc p).call? = some (call, i) →
    (s.pc q).call? = some (other, j) → call.number = other.number → p = q
  finished : ∀ entry ∈ s.returned, entry.1.number < s.nextCall ∧
    ∃ k, k ≤ entry.1.n.toNat ∧ s.storedBy entry.1.number = entry.1.bytes k ∧
      (entry.2 = entry.1.n → k = entry.1.n.toNat)
  ended : ∀ entry ∈ s.returned, ∀ p call i, (s.pc p).call? = some (call, i) →
    call.number ≠ entry.1.number

theorem fifo_init (data : Nat → UInt8) : Fifo (System.init Pid data) := by
  constructor <;> simp [System.init, pipealloc, Circular.count, Circular.contents, Pc.call?]

theorem Fifo.move {s after : System Pid} (fifo : Fifo s)
    (bounded : after.pipe.count ≤ s.pipe.count)
    (stream : after.delivered ++ after.pipe.contents PIPESIZE =
      s.delivered ++ s.pipe.contents PIPESIZE)
    (calls : ∀ p, (after.pc p).call? = (s.pc p).call?) (stored : after.stored = s.stored)
    (nextCall : after.nextCall = s.nextCall) (returned : after.returned = s.returned) :
    Fifo after := by
  have storedBy : ∀ number, after.storedBy number = s.storedBy number := by
    intro number
    rw [System.storedBy, stored, System.storedBy]
  refine ⟨bounded.trans fifo.bounded, ?_, ?_, ?_, ?_, ?_, ?_⟩
  · rw [stream, stored, fifo.stream]
  · rw [stored, nextCall]
    exact fifo.past
  · intro p call i running
    rw [calls] at running
    rw [nextCall, storedBy]
    exact fifo.current p call i running
  · intro p q call i other j first second
    rw [calls] at first second
    exact fifo.alone p q call i other j first second
  · intro entry member
    rw [returned] at member
    rw [nextCall, storedBy]
    exact fifo.finished entry member
  · intro entry member p call i running
    rw [returned] at member
    rw [calls] at running
    exact fifo.ended entry member p call i running

theorem bytes_append (call : WriteCall) {i j : Nat} (later : i ≤ j) :
    call.bytes i ++ bytesFrom call.addr i (j - i) = call.bytes j := by
  unfold WriteCall.bytes bytesFrom
  rw [← List.map_append]
  congr 1
  have joined := @List.range'_append_1 0 i (j - i)
  rw [Nat.zero_add, show i + (j - i) = j by omega] at joined
  exact joined

theorem storedBy_store_ne (s : System Pid) (call : WriteCall) (i : Nat) {number : Nat}
    (different : call.number ≠ number) :
    (s.store call i).2.storedBy number = s.storedBy number := by
  simp only [System.storedBy, System.store, List.filter_append, List.map_append]
  simp only [List.filter_map, Function.comp_def, different, decide_false, List.filter_false,
    List.map_nil, List.append_nil]

theorem storedBy_store_self (s : System Pid) (call : WriteCall) (i : Nat) :
    (s.store call i).2.storedBy call.number = s.storedBy call.number ++
      bytesFrom call.addr i ((s.store call i).1 - i) := by
  simp only [System.storedBy, System.store, List.filter_append, List.map_append]
  simp [bytesFrom, List.filter_map, Function.comp_def]

section Sections

variable {s after : System Pid} {p : Pid} {call : WriteCall} {i : Nat}

theorem Fifo.stores (fifo : Fifo s) (call : WriteCall) (i : Nat) :
    Stores call.addr (call.n.toNat - i) i s.pipe (s.store call i).1 (s.store call i).2.pipe :=
  storeLoop_stores call.addr (call.n.toNat - i) i s.pipe fifo.bounded

theorem Fifo.storedBy_store (fifo : Fifo s) (control : s.pc p = .write call i) :
    i ≤ (s.store call i).1 ∧ (s.store call i).1 ≤ call.n.toNat ∧
      (s.store call i).2.storedBy call.number = call.bytes (s.store call i).1 := by
  have current := fifo.current p call i (by rw [control]; rfl)
  have stores := fifo.stores call i
  have upper := stores.upper
  refine ⟨stores.lower, by omega, ?_⟩
  rw [storedBy_store_self, current.2.2, bytes_append call stores.lower]

theorem Fifo.advance (fifo : Fifo s) (control : s.pc p = .write call i)
    (pipe : after.pipe = (s.store call i).2.pipe)
    (stored : after.stored = (s.store call i).2.stored)
    (delivered : after.delivered = s.delivered) (nextCall : after.nextCall = s.nextCall)
    (others : ∀ q, q ≠ p → (after.pc q).call? = (s.pc q).call?)
    (mine : (after.pc p).call? = some (call, (s.store call i).1) ∧
        after.returned = s.returned ∨
      ∃ result, (after.pc p).call? = none ∧ after.returned = (call, result) :: s.returned ∧
        (result = call.n → (s.store call i).1 = call.n.toNat)) : Fifo after := by
  have running : (s.pc p).call? = some (call, i) := by rw [control]; rfl
  have known := (fifo.current p call i running).1
  have stores := fifo.stores call i
  rcases fifo.storedBy_store control with ⟨lower, upper, ours⟩
  have storedBy : ∀ number, after.storedBy number = (s.store call i).2.storedBy number := by
    intro number
    rw [System.storedBy, stored, System.storedBy]
  -- a process in a call after the section was in the same call before
  have before : ∀ q other j, (after.pc q).call? = some (other, j) →
      (q = p ∧ other = call ∧ j = (s.store call i).1) ∨
        q ≠ p ∧ (s.pc q).call? = some (other, j) := by
    intro q other j isRunning
    by_cases here : q = p
    · subst here
      rcases mine with ⟨goesOn, _⟩ | ⟨result, left, _⟩
      · rw [goesOn] at isRunning
        cases isRunning
        exact .inl ⟨rfl, rfl, rfl⟩
      · rw [left] at isRunning
        contradiction
    · exact .inr ⟨here, by rw [← others q here]; exact isRunning⟩
  have stillDone : ∀ entry ∈ s.returned, entry.1.number < after.nextCall ∧
      ∃ k, k ≤ entry.1.n.toNat ∧ after.storedBy entry.1.number = entry.1.bytes k ∧
        (entry.2 = entry.1.n → k = entry.1.n.toNat) := by
    intro entry member
    rw [nextCall, storedBy, storedBy_store_ne s call i (fifo.ended entry member p call i running)]
    exact fifo.finished entry member
  refine ⟨?_, ?_, ?_, ?_, ?_, ?_, ?_⟩
  · rw [pipe]
    exact stores.bounded
  · rw [pipe, stored, delivered, stores.contents, ← List.append_assoc, fifo.stream]
    simp [System.store, bytesFrom]
  · rw [stored, nextCall]
    intro entry member
    rcases List.mem_append.mp member with old | new
    · exact fifo.past entry old
    · rcases List.mem_map.mp new with ⟨_, _, rfl⟩
      exact known
  · intro q other j isRunning
    rw [nextCall, storedBy]
    rcases before q other j isRunning with ⟨rfl, rfl, rfl⟩ | ⟨elsewhere, was⟩
    · exact ⟨known, upper, ours⟩
    · have different : call.number ≠ other.number := fun same =>
        elsewhere (fifo.alone p q call i other j running was same).symm
      rw [storedBy_store_ne s call i different]
      exact fifo.current q other j was
  · intro q r first k second m isRunning isRunning' same
    rcases before q first k isRunning with ⟨rfl, rfl, rfl⟩ | ⟨_, was⟩
    · rcases before r second m isRunning' with ⟨rfl, _⟩ | ⟨_, was'⟩
      · rfl
      · exact fifo.alone q r _ _ _ _ running was' same
    · rcases before r second m isRunning' with ⟨rfl, rfl, rfl⟩ | ⟨_, was'⟩
      · exact fifo.alone q r _ _ _ _ was running same
      · exact fifo.alone q r _ _ _ _ was was' same
  · intro entry member
    rcases mine with ⟨_, same⟩ | ⟨result, _, returned, all⟩
    · rw [same] at member
      exact stillDone entry member
    · rw [returned] at member
      rcases List.mem_cons.mp member with rfl | old
      · rw [nextCall, storedBy]
        exact ⟨known, _, upper, ours, all⟩
      · exact stillDone entry old
  · intro entry member q other j isRunning
    have old : entry ∈ s.returned → other.number ≠ entry.1.number := by
      intro wasDone
      rcases before q other j isRunning with ⟨rfl, rfl, rfl⟩ | ⟨_, was⟩
      · exact fifo.ended entry wasDone q other i running
      · exact fifo.ended entry wasDone q other j was
    rcases mine with ⟨_, same⟩ | ⟨result, left, returned, _⟩
    · rw [same] at member
      exact old member
    · rw [returned] at member
      rcases List.mem_cons.mp member with rfl | wasDone
      · rcases before q other j isRunning with ⟨rfl, _, _⟩ | ⟨elsewhere, was⟩
        · rw [left] at isRunning
          contradiction
        · intro same
          exact elsewhere (fifo.alone p q call i other j running was same.symm).symm
      · exact old wasDone

end Sections

variable [DecidableEq Pid]

theorem call?_update {s : System Pid} {p : Pid} {next : Pc}
    (same : next.call? = (s.pc p).call?) (q : Pid) :
    (update s.pc p next q).call? = (s.pc q).call? := by
  by_cases here : q = p
  · subst here
    rw [update_self, same]
  · rw [update_of_ne here]

theorem Fifo.start {s : System Pid} (fifo : Fifo s) {p : Pid} {result : Option Int}
    (control : s.pc p = .out result) (addr : Nat → UInt8) (n : Int) :
    Fifo { s.setPc p (.write ⟨s.nextCall, addr, n⟩ 0) with nextCall := s.nextCall + 1 } := by
  have before : ∀ q call i,
      (update s.pc p (.write ⟨s.nextCall, addr, n⟩ 0) q).call? = some (call, i) →
      (q = p ∧ call = ⟨s.nextCall, addr, n⟩ ∧ i = 0) ∨ (s.pc q).call? = some (call, i) := by
    intro q call i isRunning
    by_cases here : q = p
    · subst here
      rw [update_self] at isRunning
      cases isRunning
      exact .inl ⟨rfl, rfl, rfl⟩
    · rw [update_of_ne here] at isRunning
      exact .inr isRunning
  refine ⟨fifo.bounded, fifo.stream, ?_, ?_, ?_, ?_, ?_⟩
  · intro entry member
    exact Nat.lt_succ_of_lt (fifo.past entry member)
  · intro q call i isRunning
    rcases before q call i isRunning with ⟨rfl, rfl, rfl⟩ | was
    · refine ⟨Nat.lt_succ_self _, Nat.zero_le _, ?_⟩
      -- the number is fresh, so nothing has been stored under it
      have nothing : s.stored.filter (fun entry => entry.1 = s.nextCall) = [] := by
        rw [List.filter_eq_nil_iff]
        intro entry member same
        have old := fifo.past entry member
        simp only [decide_eq_true_eq] at same
        omega
      simp [System.storedBy, System.setPc, nothing, WriteCall.bytes, bytesFrom]
    · have current := fifo.current q call i was
      exact ⟨Nat.lt_succ_of_lt current.1, current.2⟩
  · intro q r call i other j isRunning isRunning' same
    rcases before q call i isRunning with ⟨rfl, rfl, rfl⟩ | was
    · rcases before r other j isRunning' with ⟨rfl, _, _⟩ | was'
      · rfl
      · have old := (fifo.current r other j was').1
        simp only at same
        omega
    · rcases before r other j isRunning' with ⟨rfl, rfl, rfl⟩ | was'
      · have old := (fifo.current q call i was).1
        simp only at same
        omega
      · exact fifo.alone q r _ _ _ _ was was' same
  · intro entry member
    have done := fifo.finished entry member
    exact ⟨Nat.lt_succ_of_lt done.1, done.2⟩
  · intro entry member q call i isRunning
    rcases before q call i isRunning with ⟨rfl, rfl, rfl⟩ | was
    · have old := (fifo.finished entry member).1
      simp only
      omega
    · exact fifo.ended entry member q call i was

theorem Fifo.step {s after : System Pid} {action : Action Pid} (fifo : Fifo s)
    (stepped : s.Step action after) : Fifo after := by
  cases stepped with
  | write control => exact fifo.start control _ _
  | read control =>
    exact fifo.move le_rfl rfl (call?_update (by rw [control]; rfl)) rfl rfl rfl
  | @writeFails p call i late control full refused =>
    refine fifo.advance control rfl rfl rfl rfl ?_ (.inr ⟨-1, ?_, rfl, ?_⟩)
    · intro q elsewhere
      simp [System.returnWrite, System.setPc, System.store, elsewhere]
    · simp [System.returnWrite, System.setPc, Pc.call?]
    · intro negative
      omega
  | @writeSleeps p call i late killed control full readopen =>
    refine fifo.advance control rfl rfl rfl rfl ?_ (.inl ⟨?_, rfl⟩)
    · intro q elsewhere
      simp [System.wakeNread, System.setPc, System.store, elsewhere]
    · simp [System.wakeNread, System.setPc, Pc.call?]
  | @writeEnds p call i late control all =>
    have upper := (fifo.storedBy_store control).2.1
    refine fifo.advance control rfl rfl rfl rfl ?_ (.inr ⟨call.n, ?_, rfl, ?_⟩)
    · intro q elsewhere
      simp [System.returnWrite, System.wakeNread, System.setPc, System.store, elsewhere]
    · simp [System.returnWrite, System.setPc, Pc.call?]
    · intro _
      omega
  | readFails control =>
    exact fifo.move le_rfl rfl (call?_update (by rw [control]; rfl)) rfl rfl rfl
  | readSleeps control empty writeopen =>
    exact fifo.move le_rfl rfl (call?_update (by rw [control]; rfl)) rfl rfl rfl
  | @readEnds p n late control something =>
    have copies := copyLoop_copies n.toNat s.pipe
    refine fifo.move copies.bounded ?_ ?_ rfl rfl rfl
    · rw [copies.contents, ← List.append_assoc]
      rfl
    · intro q
      by_cases here : q = p
      · subst here
        simp [System.setPc, control, Pc.call?]
      · simp [System.setPc, System.wakeNwrite, System.copy, here]
  | @close writable =>
    cases writable with
    | false => exact fifo.move le_rfl rfl (fun q => Pc.call?_wakeNwrite _) rfl rfl rfl
    | true => exact fifo.move le_rfl rfl (fun q => Pc.call?_wakeNread _) rfl rfl rfl
  | kill => exact fifo.move le_rfl rfl (call?_update (by simp)) rfl rfl rfl

theorem System.Run.fifo {data : Nat → UInt8} {s : System Pid} (run : System.Run data s) :
    Fifo s := by
  refine Transition.Reachable.invariant Fifo (fifo_init data) ?_ run
  intro before action after fifo _ stepped
  exact fifo.step (System.step_cases stepped)

theorem System.read_zero {s after : System Pid} {p : Pid} {n : Int} {late : Bool}
    (control : s.pc p = .read n) (positive : 0 < n)
    (stepped : s.Step (.run p late) after) (zero : after.pc p = .out (some 0)) :
    s.pipe.contents PIPESIZE = [] ∧ s.pipe.writeopen = false := by
  cases stepped with
  | writeFails other => simp [control] at other
  | writeSleeps other => simp [control] at other
  | writeEnds other => simp [control] at other
  | readFails | readSleeps => simp [System.setPc] at zero
  | @readEnds _ m _ same something =>
    rw [control] at same
    cases same
    simp only [System.setPc, System.copy, update_self, Pc.out.injEq, Option.some.injEq,
      Nat.cast_eq_zero, List.length_eq_zero_iff] at zero
    have copies := copyLoop_copies n.toNat s.pipe
    rw [zero] at copies
    have short : ([] : List UInt8).length < n.toNat := by
      rw [List.length_nil]
      omega
    have empty : s.pipe.contents PIPESIZE = [] := by
      rw [copies.contents, Circular.contents_eq_nil.mpr (copies.short short), List.append_nil]
    refine ⟨empty, ?_⟩
    simpa using fun writeopen =>
      something ⟨Circular.contents_eq_nil.mp empty, writeopen⟩

/-- Pipes are first-in first-out.  In every state of every interleaving of
calls, closes and kills: the buffer holds at most `PIPESIZE` bytes; the
delivered bytes followed by the buffered ones are the stored ones; each
`pipewrite` has stored a first part of its bytes in order, all of them if it
returned `n`; and a `piperead` of `n > 0` bytes returns 0 only if no byte is
buffered and the write end is closed. -/
theorem pipe_fifo (data : Nat → UInt8) {s : System Pid} (run : System.Run data s) :
    (s.pipe.nwrite - s.pipe.nread).toNat ≤ PIPESIZE ∧
    s.delivered ++ s.pipe.contents PIPESIZE = s.stored.map Prod.snd ∧
    (∀ p call i, s.pc p = .write call i ∨ s.pc p = .writeSleep call i →
      i ≤ call.n.toNat ∧ s.storedBy call.number = call.bytes i) ∧
    (∀ call result, (call, result) ∈ s.returned →
      ∃ k, k ≤ call.n.toNat ∧ s.storedBy call.number = call.bytes k ∧
        (result = call.n → k = call.n.toNat)) ∧
    (∀ p n late after, s.pc p = .read n → 0 < n → s.step (.run p late) = some after →
      after.pc p = .out (some 0) →
        s.pipe.contents PIPESIZE = [] ∧ s.pipe.writeopen = false) := by
  have fifo := run.fifo
  refine ⟨fifo.bounded, fifo.stream, ?_, ?_, ?_⟩
  · rintro p call i (control | control)
    · exact (fifo.current p call i (by rw [control]; rfl)).2
    · exact (fifo.current p call i (by rw [control]; rfl)).2
  · intro call result member
    exact (fifo.finished (call, result) member).2
  · intro p n late after control positive stepped zero
    exact System.read_zero control positive (System.step_cases stepped) zero

/-- A reader takes two of three bytes. -/
theorem pipe_fifo_two_of_three : ∃ s : System (Fin 2), System.Run (fun _ => 0) s ∧
    s.delivered = [0, 1] ∧ s.delivered ++ s.pipe.contents PIPESIZE = s.stored.map Prod.snd := by
  have found : ∃ s : System (Fin 2), System.Run (fun _ => 0) s ∧ s.delivered = [0, 1] :=
    Transition.Reachable.exists_of_run (fun _ _ => true) (fun _ _ _ => trivial) _
      [.read 0 2, .run 0 false, .write 1 (fun i => UInt8.ofNat i) 3, .run 1 false, .run 0 false]
      (by decide +kernel)
  rcases found with ⟨s, run, delivered⟩
  exact ⟨s, run, delivered, (pipe_fifo _ run).2.1⟩

end Xv6.Pipes
