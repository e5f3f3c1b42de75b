import Xv6.Console.Line

/-!
# Reading the console

A section of `consoleread` takes bytes from the front of what is ready.  It takes a `C('D')`
only as the first byte of its call, and then returns zero.  Over whole runs, the calls
that have taken a `C('D')` are therefore the calls that have returned zero, one by one and
in the same order.
-/

open Function (update update_eq_self update_of_ne update_self)

namespace Xv6.Console

/-! ## A section -/

/-- What a section of a call does, with `n` bytes to go. -/
structure Reads (call : ReadCall) (n : Nat) (l : Line) (chunk : Chunk) : Prop where
  takes : ∃ after, l.run (chunk.events call) = some after ∧ Agrees chunk.input after
  counted : chunk.bytes.length + chunk.left = n
  plain : C 'D' ∉ chunk.bytes
  eof : chunk.eof = true → chunk.bytes = [] ∧ n = call.target ∧ 0 < n ∧ chunk.waits = false
  ends : chunk.waits = false → chunk.eof = false → 0 < call.target → chunk.left < call.target

theorem readLoop_reads (call : ReadCall) {n : Nat} {input : Input} {l : Line}
    (agrees : Agrees input l) (within : n ≤ call.target) :
    Reads call n l (readLoop call.target n input) := by
  induction n generalizing input l with
  | zero =>
    exact ⟨⟨l, rfl, agrees⟩, rfl, List.not_mem_nil, Bool.noConfusion, fun _ _ positive => positive⟩
  | succ n ih =>
    unfold readLoop
    split
    · exact ⟨⟨l, rfl, agrees⟩, Nat.zero_add _, List.not_mem_nil, Bool.noConfusion, Bool.noConfusion⟩
    next some =>
      obtain ⟨rest, isReady, after⟩ := agrees.read some
      have takes : ∀ c, input.buf (input.r.toNat % INPUT_BUF) = c →
          l.take c = Option.some { l with ready := rest } := by
        intro c isNext
        simp [Line.take, isReady, isNext]
      dsimp only
      split
      next isEof =>
        split
        next short =>
          have back : { input with r := input.r + 1 - 1 } = input := by
            rw [BitVec.add_sub_cancel]
          rw [back]
          exact ⟨⟨l, rfl, agrees⟩, Nat.zero_add _, List.not_mem_nil, Bool.noConfusion,
            fun _ _ _ => short⟩
        next whole =>
          refine ⟨⟨_, ?_, after⟩, Nat.zero_add _, List.not_mem_nil,
            fun _ => ⟨rfl, by omega, Nat.succ_pos n, rfl⟩, fun _ => Bool.noConfusion⟩
          exact Line.run_took (takes _ isEof) call.number []
      next notEof =>
        split
        · refine ⟨⟨_, ?_, after⟩, Nat.add_comm _ _, ?_, Bool.noConfusion, fun _ _ _ => within⟩
          · exact Line.run_took (takes _ rfl) call.number []
          · exact fun isThere => notEof (List.mem_singleton.mp isThere).symm
        · have others := ih after (by omega)
          obtain ⟨last, ran, agreesLast⟩ := others.takes
          refine ⟨⟨last, ?_, agreesLast⟩, ?_, ?_, ?_, others.ends⟩
          · exact (Line.run_took (takes _ rfl) call.number _).trans ran
          · have := others.counted
            dsimp only
            rw [List.length_cons]
            omega
          · rw [List.mem_cons]
            rintro (isFirst | later)
            · exact notEof isFirst.symm
            · exact others.plain later
          · intro isEof
            have := (others.eof isEof).2.1
            omega

/-! ## What a step can do -/

/-- The call a process is in, with the bytes it has to go. -/
def Pc.call : Pc → Option (ReadCall × Nat)
  | .out _ => none
  | .read call left => some (call, left)
  | .sleep call left => some (call, left)

@[simp]
theorem Pc.call_wake (pc : Pc) : pc.wake.call = pc.call := by
  cases pc with
  | out result => rfl
  | read call left => rfl
  | sleep call left => rfl

structure Core (Pid : Type) where
  input : Input
  calls : Pid → Option (ReadCall × Nat)
  nextCall : Nat
  events : List Event
  returned : List (ReadCall × Int)

def System.core {Pid : Type} (s : System Pid) : Core Pid where
  input := s.input
  calls p := (s.pc p).call
  nextCall := s.nextCall
  events := s.events
  returned := s.returned

section Steps

variable {Pid : Type} [DecidableEq Pid]

def Core.take (s : Core Pid) (p : Pid) (call : ReadCall) (chunk : Chunk)
    (next : Option (ReadCall × Nat)) : Core Pid :=
  { s with
    input := chunk.input
    events := s.events ++ chunk.events call
    calls := update s.calls p next }

inductive Core.Step (s : Core Pid) : Core Pid → Prop where
  | intr (cs : List UInt8) : Step s { s with
      input := (keys cs s.input).2
      events := s.events ++ cs.map .typed }
  | begins {p : Pid} (n : Int) : s.calls p = none → Step s { s with
      calls := update s.calls p (some (⟨s.nextCall, n⟩, n.toNat))
      nextCall := s.nextCall + 1 }
  | sleeps {p : Pid} {call : ReadCall} {left : Nat} : s.calls p = some (call, left) →
      (readLoop call.target left s.input).waits = true →
      Step s (s.take p call (readLoop call.target left s.input)
        (some (call, (readLoop call.target left s.input).left)))
  | fails {p : Pid} {call : ReadCall} {left : Nat} : s.calls p = some (call, left) →
      (readLoop call.target left s.input).waits = true →
      Step s { s.take p call (readLoop call.target left s.input) none with
        returned := s.returned ++ [(call, -1)] }
  | returns {p : Pid} {call : ReadCall} {left : Nat} : s.calls p = some (call, left) →
      (readLoop call.target left s.input).waits = false →
      Step s { s.take p call (readLoop call.target left s.input) none with
        returned := s.returned ++
          [(call, (call.target : Int) - (readLoop call.target left s.input).left)] }
  | same : Step s s

theorem System.core_setPc (s : System Pid) (p : Pid) (pc : Pc) :
    (s.setPc p pc).core = { s.core with calls := update s.core.calls p pc.call } := by
  unfold System.setPc System.core
  congr
  funext q
  by_cases isIt : q = p
  · subst isIt
    simp
  · simp [isIt]

theorem System.core_returnRead (s : System Pid) (p : Pid) (call : ReadCall) (result : Int) :
    (s.returnRead p call result).core = { s.core with
      calls := update s.core.calls p none
      returned := s.returned ++ [(call, result)] } :=
  congrArg (fun core : Core Pid => { core with returned := s.returned ++ [(call, result)] })
    (s.core_setPc p (.out (some result)))

theorem System.step_cases {s after : System Pid} {action : Action Pid}
    (stepped : s.step action = some after) : Core.Step s.core after.core := by
  unfold System.step at stepped
  cases action with
  | intr cs =>
    cases stepped
    have awake : (s.consoleintr cs).core = { s.core with
        input := (keys cs s.input).2
        events := s.events ++ cs.map .typed } := by
      unfold System.consoleintr
      dsimp only
      split
      · simp [System.core, System.wakeup]
      · rfl
    rw [awake]
    exact .intr cs
  | read p n =>
    dsimp only at stepped
    split at stepped
    next result isOut =>
      cases stepped
      have begun := congrArg (fun core : Core Pid => { core with nextCall := s.nextCall + 1 })
        (s.core_setPc p (.read ⟨s.nextCall, n⟩ n.toNat))
      exact (congrArg (Core.Step s.core) begun).mpr (.begins n (congrArg Pc.call isOut))
    · cases stepped
  | run p late =>
    dsimp only at stepped
    split at stepped
    next call left isRead =>
      cases stepped
      have calling : s.core.calls p = some (call, left) := congrArg Pc.call isRead
      unfold System.consoleread
      dsimp only
      split
      next waits =>
        split
        · rw [System.core_returnRead]
          exact .fails calling waits
        · have asleep := (s.take call (readLoop call.target left s.input)).core_setPc p
            (.sleep call (readLoop call.target left s.input).left)
          have sleeps := (congrArg (Core.Step s.core) asleep).mpr (.sleeps calling waits)
          split
          · exact sleeps
          · exact sleeps
      next ends =>
        rw [System.core_returnRead]
        exact .returns calling (Bool.eq_false_iff.mpr ends)
    · cases stepped
  | kill p =>
    cases stepped
    have same : (s.kill p).core = s.core := by
      have set := s.core_setPc p (s.pc p).wake
      rw [Pc.call_wake] at set
      exact set.trans (congrArg (fun calls => { s.core with calls := calls })
        (update_eq_self p s.core.calls))
    rw [same]
    exact .same

/-! ## Whole runs -/

def eofCalls (events : List Event) : List Nat :=
  events.filterMap fun
    | .took call c => if c = C 'D' then some call else none
    | .typed _ => none

/-- The calls for more than zero bytes that have returned zero. -/
def zeroCalls (returned : List (ReadCall × Int)) : List Nat :=
  returned.filterMap fun (call, result) =>
    if 0 < call.n ∧ result = 0 then some call.number else none

theorem eofCalls_append (first second : List Event) :
    eofCalls (first ++ second) = eofCalls first ++ eofCalls second := List.filterMap_append

theorem zeroCalls_append (first second : List (ReadCall × Int)) :
    zeroCalls (first ++ second) = zeroCalls first ++ zeroCalls second := List.filterMap_append

theorem eofCalls_typed (cs : List UInt8) : eofCalls (cs.map .typed) = [] := by
  induction cs with
  | nil => rfl
  | cons c rest ih => exact ih

theorem Reads.eofCalls {call : ReadCall} {n : Nat} {l : Line} {chunk : Chunk}
    (reads : Reads call n l chunk) :
    eofCalls (chunk.events call) = if chunk.eof then [call.number] else [] := by
  have bytes : Console.eofCalls (chunk.bytes.map (.took call.number)) = [] := by
    rw [Console.eofCalls, List.filterMap_map, List.filterMap_eq_nil_iff]
    intro c isThere
    have other : c ≠ C 'D' := fun same => reads.plain (same ▸ isThere)
    simp [other]
  rw [Chunk.events, List.map_append, eofCalls_append, bytes, List.nil_append]
  cases chunk.eof with
  | false => rfl
  | true => simp [Console.eofCalls]

theorem Reads.eofCalls_waits {call : ReadCall} {n : Nat} {l : Line} {chunk : Chunk}
    (reads : Reads call n l chunk) (waits : chunk.waits = true) :
    Console.eofCalls (chunk.events call) = [] := by
  rw [reads.eofCalls, if_neg]
  intro isEof
  have ends := (reads.eof isEof).2.2.2
  rw [waits] at ends
  cases ends

theorem Reads.eofCalls_returns {call : ReadCall} {n : Nat} {l : Line} {chunk : Chunk}
    (reads : Reads call n l chunk) (ends : chunk.waits = false) :
    Console.eofCalls (chunk.events call) =
      zeroCalls [(call, (call.target : Int) - chunk.left)] := by
  have counted := reads.counted
  have target : 0 < call.n ↔ 0 < call.target := by
    unfold ReadCall.target
    omega
  rw [reads.eofCalls, zeroCalls, List.filterMap_cons, List.filterMap_nil]
  dsimp only
  cases isEof : chunk.eof with
  | false =>
    have := reads.ends ends isEof
    rw [if_neg Bool.false_ne_true, if_neg (by omega)]
  | true =>
    obtain ⟨none, whole, positive, -⟩ := reads.eof isEof
    rw [none, List.length_nil] at counted
    rw [if_pos rfl, if_pos (by omega)]

/-- The buffer agrees with the history, and so do the results of the calls. -/
structure Core.Flow (s : Core Pid) : Prop where
  line : ∃ l, Line.empty.run s.events = some l ∧ Agrees s.input l
  within : ∀ p call left, s.calls p = some (call, left) → left ≤ call.target
  eofs : Console.eofCalls s.events = zeroCalls s.returned

def Core.number (s : Core Pid) (p : Pid) : Option Nat := (s.calls p).map fun entry => entry.1.number

def Core.past (s : Core Pid) : List Nat := s.returned.map fun entry => entry.1.number

structure Core.Numbered (s : Core Pid) : Prop where
  past : s.past.Nodup
  below : ∀ k ∈ s.past, k < s.nextCall
  running : ∀ p k, s.number p = some k → k < s.nextCall ∧ k ∉ s.past
  distinct : ∀ p q k, s.number p = some k → s.number q = some k → p = q

omit [DecidableEq Pid] in
theorem Core.Flow.take {s : Core Pid} (flow : s.Flow) {p : Pid} {call : ReadCall} {left : Nat}
    (calling : s.calls p = some (call, left)) :
    ∃ l, Reads call left l (readLoop call.target left s.input) ∧
      ∃ after, Line.empty.run (s.events ++ (readLoop call.target left s.input).events call) =
        some after ∧ Agrees (readLoop call.target left s.input).input after := by
  obtain ⟨l, ran, agrees⟩ := flow.line
  have reads := readLoop_reads call agrees (flow.within p call left calling)
  obtain ⟨after, took, agreesAfter⟩ := reads.takes
  refine ⟨l, reads, after, ?_, agreesAfter⟩
  rw [Line.run_append, ran, Option.bind_some, took]

theorem Core.Flow.step {s after : Core Pid} (flow : s.Flow) (step : Core.Step s after) :
    after.Flow := by
  have others : ∀ {p : Pid} {next : Option (ReadCall × Nat)},
      (∀ call left, next = some (call, left) → left ≤ call.target) →
      ∀ q call left, update s.calls p next q = some (call, left) → left ≤ call.target := by
    intro p next within q call left calling
    by_cases isIt : q = p
    · subst isIt
      rw [update_self] at calling
      exact within call left calling
    · rw [update_of_ne isIt] at calling
      exact flow.within q call left calling
  cases step with
  | intr cs =>
    obtain ⟨l, ran, agrees⟩ := flow.line
    refine ⟨⟨cs.foldl Line.typed l, ?_, agrees.keys cs⟩, flow.within, ?_⟩
    · rw [Line.run_append, ran, Option.bind_some, Line.run_typed]
    · rw [eofCalls_append, eofCalls_typed, List.append_nil]
      exact flow.eofs
  | begins n idle => exact ⟨flow.line, others (by rintro _ _ ⟨⟩; exact le_rfl), flow.eofs⟩
  | sleeps calling waits =>
    obtain ⟨l, reads, line⟩ := flow.take calling
    have within := flow.within _ _ _ calling
    have counted := reads.counted
    refine ⟨line, others (by rintro _ _ ⟨⟩; omega), ?_⟩
    simp only [Core.take]
    rw [eofCalls_append, reads.eofCalls_waits waits, List.append_nil]
    exact flow.eofs
  | fails calling waits =>
    obtain ⟨l, reads, line⟩ := flow.take calling
    refine ⟨line, others nofun, ?_⟩
    simp only [Core.take]
    rw [eofCalls_append, reads.eofCalls_waits waits, List.append_nil, flow.eofs, zeroCalls_append]
    simp [zeroCalls]
  | returns calling ends =>
    obtain ⟨l, reads, line⟩ := flow.take calling
    refine ⟨line, others nofun, ?_⟩
    simp only [Core.take]
    rw [eofCalls_append, reads.eofCalls_returns ends, flow.eofs,
      zeroCalls_append]
  | same => exact flow

theorem Core.number_update {s : Core Pid} {p : Pid} {next : Option (ReadCall × Nat)} :
    (fun q => (update s.calls p next q).map fun entry => entry.1.number) =
      update s.number p (next.map fun entry => entry.1.number) := by
  funext q
  by_cases isIt : q = p
  · subst isIt
    simp
  · simp [isIt, Core.number]

omit [DecidableEq Pid] in
theorem Core.Numbered.congr {s after : Core Pid} (numbered : s.Numbered)
    (number : after.number = s.number) (past : after.past = s.past)
    (nextCall : after.nextCall = s.nextCall) : after.Numbered := by
  refine ⟨past ▸ numbered.past, ?_, ?_, ?_⟩
  · rw [past, nextCall]
    exact numbered.below
  · rw [past, nextCall, number]
    exact numbered.running
  · rw [number]
    exact numbered.distinct

theorem Core.Numbered.finish {s after : Core Pid} (numbered : s.Numbered) {p : Pid} {k : Nat}
    (calling : s.number p = some k) (number : after.number = update s.number p none)
    (past : after.past = s.past ++ [k]) (nextCall : after.nextCall = s.nextCall) :
    after.Numbered := by
  obtain ⟨below, fresh⟩ := numbered.running p k calling
  have others : ∀ {q j}, after.number q = some j → q ≠ p ∧ s.number q = some j := by
    intro q j isRunning
    rw [number] at isRunning
    by_cases isIt : q = p
    · rw [isIt, update_self] at isRunning
      cases isRunning
    · rw [update_of_ne isIt] at isRunning
      exact ⟨isIt, isRunning⟩
  refine ⟨?_, ?_, ?_, ?_⟩
  · rw [past]
    exact List.Nodup.append numbered.past (List.nodup_singleton k)
      (List.disjoint_singleton.mpr fresh)
  · rw [past, nextCall]
    intro j isPast
    rcases List.mem_append.mp isPast with old | new
    · exact numbered.below j old
    · exact List.mem_singleton.mp new ▸ below
  · rw [past, nextCall]
    intro q j isRunning
    obtain ⟨other, wasRunning⟩ := others isRunning
    obtain ⟨below, notPast⟩ := numbered.running q j wasRunning
    refine ⟨below, fun isPast => ?_⟩
    rcases List.mem_append.mp isPast with old | new
    · exact notPast old
    · exact other (numbered.distinct q p j wasRunning (List.mem_singleton.mp new ▸ calling))
  · intro q r j first second
    exact numbered.distinct q r j (others first).2 (others second).2

theorem Core.Numbered.start {s after : Core Pid} (numbered : s.Numbered) {p : Pid}
    (number : after.number = update s.number p (some s.nextCall))
    (past : after.past = s.past) (nextCall : after.nextCall = s.nextCall + 1) : after.Numbered := by
  have cases : ∀ {q j}, after.number q = some j →
      q = p ∧ j = s.nextCall ∨ j < s.nextCall ∧ s.number q = some j := by
    intro q j isRunning
    rw [number] at isRunning
    by_cases isIt : q = p
    · rw [isIt, update_self] at isRunning
      exact .inl ⟨isIt, (Option.some.inj isRunning).symm⟩
    · rw [update_of_ne isIt] at isRunning
      exact .inr ⟨(numbered.running q j isRunning).1, isRunning⟩
  refine ⟨past ▸ numbered.past, ?_, ?_, ?_⟩
  · rw [past, nextCall]
    exact fun j isPast => Nat.lt_succ_of_lt (numbered.below j isPast)
  · rw [past, nextCall]
    intro q j isRunning
    rcases cases isRunning with ⟨-, rfl⟩ | ⟨-, wasRunning⟩
    · exact ⟨Nat.lt_succ_self _, fun isPast => Nat.lt_irrefl _ (numbered.below _ isPast)⟩
    · obtain ⟨below, notPast⟩ := numbered.running q j wasRunning
      exact ⟨Nat.lt_succ_of_lt below, notPast⟩
  · intro q r j first second
    rcases cases first with ⟨rfl, isNext⟩ | ⟨below, wasFirst⟩ <;>
      rcases cases second with ⟨rfl, isNext'⟩ | ⟨below', wasSecond⟩
    · rfl
    · omega
    · omega
    · exact numbered.distinct q r j wasFirst wasSecond

theorem Core.Numbered.step {s after : Core Pid} (numbered : s.Numbered) (step : Core.Step s after) :
    after.Numbered := by
  have number : ∀ {p call left}, s.calls p = some (call, left) → s.number p = some call.number :=
    fun calling => by rw [Core.number, calling, Option.map_some]
  cases step with
  | intr cs => exact numbered.congr rfl rfl rfl
  | same => exact numbered
  | begins n idle => exact numbered.start Core.number_update rfl rfl
  | @sleeps p call left calling waits =>
    have same : update s.number p (some call.number) = s.number := by
      rw [← number calling, update_eq_self]
    exact numbered.congr (Core.number_update.trans same) rfl rfl
  | fails calling waits =>
    exact numbered.finish (number calling) Core.number_update (by simp [Core.past]) rfl
  | returns calling ends =>
    exact numbered.finish (number calling) Core.number_update (by simp [Core.past]) rfl

theorem Core.invariant {buf : Nat → UInt8} {start : Word} {s : System Pid}
    (run : System.Run buf start s) : s.core.Flow ∧ s.core.Numbered := by
  refine run.invariant (fun s => s.core.Flow ∧ s.core.Numbered) ?_ ?_
  · refine ⟨⟨⟨Line.empty, rfl, ?_⟩, nofun, rfl⟩, ⟨List.nodup_nil, nofun, nofun, nofun⟩⟩
    refine ⟨?_, ?_, Nat.zero_le _, List.not_mem_nil⟩
    · simp [System.core, System.init, Line.empty]
    · exact Circular.contents_eq_nil.mpr rfl
  · intro before action after holds _ stepped
    exact ⟨holds.1.step (System.step_cases stepped), holds.2.step (System.step_cases stepped)⟩

theorem consoleread_eof {s : System Pid} {l : Line} (agrees : Agrees s.input l) {p : Pid}
    {call : ReadCall} (positive : 0 < call.n) (next : l.ready.head? = some (C 'D')) (late : Bool) :
    ∃ input, Agrees input { l with ready := l.ready.tail } ∧
      s.consoleread p call call.target late = { s.returnRead p call 0 with
        input := input
        events := s.events ++ [.took call.number (C 'D')] } := by
  have some : s.input.r ≠ s.input.w := by
    intro same
    rw [agrees.read_eq_write.mp same] at next
    cases next
  obtain ⟨rest, isReady, after⟩ := agrees.read some
  have isEof : s.input.buf (s.input.r.toNat % INPUT_BUF) = C 'D' := by
    rw [isReady] at next
    exact Option.some.inj next
  refine ⟨{ s.input with r := s.input.r + 1 }, by rw [isReady]; exact after, ?_⟩
  obtain ⟨n, isTarget⟩ : ∃ n, call.target = n + 1 :=
    Nat.exists_eq_succ_of_ne_zero (by unfold ReadCall.target; omega)
  have chunk : readLoop call.target call.target s.input =
      ⟨[], true, call.target, false, { s.input with r := s.input.r + 1 }⟩ := by
    rw [isTarget, readLoop, if_neg some]
    simp [isEof]
  unfold System.consoleread
  rw [chunk]
  simp [System.take, Chunk.events, System.returnRead, System.setPc]

structure Disciplined (s : System Pid) (l : Line) : Prop where
  /-- the history is one of the abstract line -/
  history : Line.empty.run s.events = some l
  written : (s.input.w - s.input.r).toNat ≤ (s.input.e - s.input.r).toNat
  edited : (s.input.e - s.input.r).toNat ≤ INPUT_BUF
  unread : s.input.unread = l.ready
  editing : s.input.editing = l.line
  /-- what has been read and what can be read is what has been committed -/
  committed : Line.taken s.events ++ s.input.unread = l.segments.flatten
  /-- no character takes back what has been committed -/
  erases : ∀ c, s.input.unread <+: (key c s.input).2.unread
  /-- the calls that have taken a `C('D')` are those that have returned zero -/
  eofs : eofCalls s.events = zeroCalls s.returned
  numbers : (s.returned.map fun entry => entry.1.number).Nodup
  /-- a `C('D')` that comes next is taken by the next new call, which returns zero -/
  eof : ∀ p call late after, s.pc p = .read call call.target → 0 < call.n →
    s.input.unread.head? = some (C 'D') → s.step (.run p late) = some after →
    after.returned = s.returned ++ [(call, 0)] ∧ after.input.unread = s.input.unread.tail

theorem console_discipline {buf : Nat → UInt8} {start : Word} {s : System Pid}
    (run : System.Run buf start s) : ∃ l, Disciplined s l := by
  obtain ⟨flow, numbered⟩ := Core.invariant run
  obtain ⟨l, ran, agrees⟩ := flow.line
  have agrees : Agrees s.input l := agrees
  have count := agrees.count
  have ready := agrees.ready
  have room := agrees.room
  refine ⟨l, ran, by omega, by omega, agrees.unread, agrees.editing, ?_, fun c => ?_, flow.eofs,
    numbered.past, fun p call late after isRead positive next stepped => ?_⟩
  · have balanced : Line.empty.segments.flatten = [] ++ Line.empty.ready := rfl
    rw [agrees.unread, Line.run_flatten ran balanced, List.nil_append]
    rfl
  · obtain ⟨more, -, ready⟩ := l.typed_grows c
    rw [agrees.unread, (agrees.key c).unread, ready]
    exact List.prefix_append ..
  · rw [agrees.unread] at next
    obtain ⟨input, agreesAfter, ends⟩ := consoleread_eof (s := s) (p := p) agrees positive next late
    simp only [System.step, isRead, Option.some.injEq] at stepped
    rw [← stepped, ends]
    exact ⟨rfl, by rw [agrees.unread, agreesAfter.unread]⟩

end Steps

/-- Control-D after two characters, with the indices about to wrap around: one call gets the
characters and the next one nothing. -/
theorem console_discipline_wraps : ∃ s : System Unit, System.Run (fun _ => 0) 0xffffffff s ∧
    s.returned = [(⟨0, 5⟩, 2), (⟨1, 5⟩, 0)] ∧ ∃ l, Disciplined s l := by
  have ran :
      (Transition.run System.step (fun _ _ => true) (System.init Unit (fun _ => 0) 0xffffffff)
      [.read () 5, .run () false, .intr [97, 120, 8, 98, 4], .run () false, .read () 5,
        .run () false]).any (fun s => decide (s.returned = [(⟨0, 5⟩, 2), (⟨1, 5⟩, 0)])) = true := by
    decide +kernel
  obtain ⟨s, run, returned⟩ := Transition.Reachable.exists_of_run _ (fun _ _ _ => trivial) _ _ ran
  exact ⟨s, run, returned, console_discipline run⟩

end Xv6.Console
