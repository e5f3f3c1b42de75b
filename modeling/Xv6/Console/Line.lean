import Xv6.Console.Model

/-!
# What the console is for

A line is edited until it is committed, and readers take the bytes of committed lines in
order.  `Line` says so with lists and no indices: what has been committed and not yet
read, what is being edited, and the segments committed so far.  The buffer with its three
indices agrees with it after every character and every byte read, however far the indices
have run.
-/

namespace Xv6.Console

structure Line where
  segments : List (List UInt8)
  ready : List UInt8
  line : List UInt8

namespace Line

def empty : Line := ⟨[], [], []⟩

def commit (l : Line) : Line := ⟨l.segments ++ [l.line], l.ready ++ l.line, []⟩

/-- A character is added, and commits the line if it ends it or fills the buffer. -/
def add (l : Line) (c : UInt8) : Line :=
  let longer := { l with line := l.line ++ [c] }
  if c = newline ∨ c = C 'D' ∨ longer.ready.length + longer.line.length = INPUT_BUF then
    longer.commit
  else longer

def typed (l : Line) (c : UInt8) : Line :=
  if c = C 'P' then l
  else if c = C 'U' then { l with line := [] }
  else if c = C 'H' ∨ c = delete then { l with line := l.line.dropLast }
  else if c ≠ 0 ∧ l.ready.length + l.line.length < INPUT_BUF then
    l.add (if c = carriageReturn then newline else c)
  else l

def take (l : Line) (c : UInt8) : Option Line :=
  match l.ready with
  | next :: rest => if next = c then some { l with ready := rest } else none
  | [] => none

def next (l : Line) : Event → Option Line
  | .typed c => some (l.typed c)
  | .took _ c => l.take c

def run (l : Line) (events : List Event) : Option Line := events.foldlM next l

theorem run_append (l : Line) (first second : List Event) :
    l.run (first ++ second) = (l.run first).bind fun mid => mid.run second := List.foldlM_append

theorem run_typed (l : Line) (cs : List UInt8) :
    l.run (cs.map .typed) = some (cs.foldl typed l) := by
  induction cs generalizing l with
  | nil => rfl
  | cons c rest ih => exact ih (l.typed c)

theorem run_took {l after : Line} {c : UInt8} (takes : l.take c = some after) (call : Nat)
    (events : List Event) : l.run (.took call c :: events) = after.run events := by
  change (l.take c).bind (fun mid => mid.run events) = _
  rw [takes, Option.bind_some]

def taken (events : List Event) : List UInt8 :=
  events.filterMap fun
    | .took _ c => some c
    | .typed _ => none

def Grows (l after : Line) : Prop :=
  ∃ more, after.segments = l.segments ++ more ∧ after.ready = l.ready ++ more.flatten

theorem Grows.of_same {l after : Line} (segments : after.segments = l.segments)
    (ready : after.ready = l.ready) : Grows l after :=
  ⟨[], by simp [segments], by simp [ready]⟩

theorem add_grows (l : Line) (c : UInt8) : Grows l (l.add c) := by
  unfold add
  dsimp only
  split
  · exact ⟨[l.line ++ [c]], rfl, by simp [commit]⟩
  · exact .of_same rfl rfl

theorem typed_grows (l : Line) (c : UInt8) : Grows l (l.typed c) := by
  unfold typed
  split
  · exact .of_same rfl rfl
  · split
    · exact .of_same rfl rfl
    · split
      · exact .of_same rfl rfl
      · split
        · exact l.add_grows _
        · exact .of_same rfl rfl

theorem run_flatten {l after : Line} {events : List Event} {before : List UInt8}
    (ran : l.run events = some after) (balanced : l.segments.flatten = before ++ l.ready) :
    after.segments.flatten = before ++ taken events ++ after.ready := by
  induction events generalizing l before with
  | nil =>
    cases ran
    simpa [taken] using balanced
  | cons event rest ih =>
    obtain ⟨mid, stepped, others⟩ := Option.bind_eq_some_iff.mp ran
    cases event with
    | typed c =>
      cases stepped
      obtain ⟨more, segments, ready⟩ := l.typed_grows c
      refine ih others ?_
      rw [segments, List.flatten_append, balanced, ready, List.append_assoc]
    | took call c =>
      simp only [next, take] at stepped
      split at stepped
      next next left isReady =>
        split at stepped
        next isNext =>
          cases stepped
          have balanced' : l.segments.flatten = (before ++ [c]) ++ left := by
            rw [balanced, isReady, isNext, List.append_assoc, List.singleton_append]
          rw [ih others balanced', List.append_assoc before, List.singleton_append]
          rfl
        · cases stepped
      · cases stepped

end Line

/-! ## The buffer -/

theorem INPUT_BUF_dvd : INPUT_BUF ∣ 2 ^ 32 := by decide

theorem INPUT_BUF_lt : INPUT_BUF < 2 ^ 32 := by decide

namespace Input

/-- The cells from the read index to the edit index. -/
def cells (input : Input) : Circular UInt8 := ⟨input.buf, input.r, input.e⟩

def unread (input : Input) : List UInt8 :=
  (input.cells.contents INPUT_BUF).take (input.w - input.r).toNat

def editing (input : Input) : List UInt8 :=
  (input.cells.contents INPUT_BUF).drop (input.w - input.r).toNat

end Input

/-- The buffer holds what is ready and the line being edited. -/
structure Agrees (input : Input) (l : Line) : Prop where
  ready : (input.w - input.r).toNat = l.ready.length
  contents : input.cells.contents INPUT_BUF = l.ready ++ l.line
  room : l.ready.length + l.line.length ≤ INPUT_BUF
  plain : newline ∉ l.line

namespace Agrees

variable {input : Input} {l : Line}

theorem count (agrees : Agrees input l) :
    (input.e - input.r).toNat = l.ready.length + l.line.length := by
  have length := Circular.length_contents INPUT_BUF input.cells
  rw [agrees.contents, List.length_append] at length
  exact length.symm

theorem unread (agrees : Agrees input l) : input.unread = l.ready := by
  rw [Input.unread, agrees.ready, agrees.contents, List.take_left]

theorem editing (agrees : Agrees input l) : input.editing = l.line := by
  rw [Input.editing, agrees.ready, agrees.contents, List.drop_left]

theorem length_line (agrees : Agrees input l) : (input.e - input.w).toNat = l.line.length := by
  have count := agrees.count
  have ready := agrees.ready
  have room := agrees.room
  simp only [BitVec.toNat_sub] at count ready ⊢
  have := input.r.isLt
  have := input.w.isLt
  have := input.e.isLt
  omega

theorem edit_eq_write (agrees : Agrees input l) : input.e = input.w ↔ l.line = [] := by
  rw [← List.length_eq_zero_iff, ← agrees.length_line, ← BitVec.toNat_inj, BitVec.toNat_sub]
  have := input.w.isLt
  have := input.e.isLt
  omega

theorem read_eq_write (agrees : Agrees input l) : input.r = input.w ↔ l.ready = [] := by
  rw [← List.length_eq_zero_iff, ← agrees.ready, ← BitVec.toNat_inj, BitVec.toNat_sub]
  have := input.w.isLt
  have := input.r.isLt
  omega

/-! ## Typing -/

theorem erase (agrees : Agrees input l) (nonempty : l.line ≠ []) :
    Agrees { input with e := input.e - 1 } { l with line := l.line.dropLast } ∧
      input.buf ((input.e - 1).toNat % INPUT_BUF) ∈ l.line := by
  have positive : 0 < l.line.length := List.length_pos_iff.mpr nonempty
  have some : 0 < input.cells.count := by
    have count := agrees.count
    rw [Circular.count]
    change 0 < (input.e - input.r).toNat
    omega
  have split := Circular.contents_retract INPUT_BUF_dvd some
  rw [agrees.contents, ← List.dropLast_append_getLast nonempty, ← List.append_assoc] at split
  obtain ⟨rest, last⟩ := List.append_inj' split rfl
  refine ⟨⟨agrees.ready, rest.symm, ?_,
    fun isThere => agrees.plain (List.dropLast_subset _ isThere)⟩, ?_⟩
  · have := agrees.room
    simp only [List.length_dropLast]
    omega
  · have isLast : l.line.getLast nonempty = input.buf ((input.e - 1).toNat % INPUT_BUF) :=
      List.singleton_inj.mp last
    rw [← isLast]
    exact List.getLast_mem nonempty

theorem killLine (fuel : Nat) {input : Input} {l : Line} (agrees : Agrees input l)
    (enough : l.line.length = fuel) : Agrees (killLine fuel input) { l with line := [] } := by
  induction fuel generalizing input l with
  | zero =>
    have isEmpty := List.length_eq_zero_iff.mp enough
    have same : { l with line := [] } = l := by rw [← isEmpty]
    rw [same]
    exact agrees
  | succ fuel ih =>
    have nonempty : l.line ≠ [] := List.ne_nil_of_length_eq_add_one enough
    obtain ⟨erased, isThere⟩ := agrees.erase nonempty
    have notNewline : input.buf ((input.e - 1).toNat % INPUT_BUF) ≠ newline :=
      fun same => agrees.plain (same ▸ isThere)
    unfold Console.killLine
    rw [if_pos ⟨fun same => nonempty (agrees.edit_eq_write.mp same), notNewline⟩]
    have rest := ih erased (by simp [enough])
    exact rest

theorem add (agrees : Agrees input l) (room : l.ready.length + l.line.length < INPUT_BUF)
    (c : UInt8) : Agrees (input.add c).2 (l.add c) := by
  have count : input.cells.count = l.ready.length + l.line.length := agrees.count
  have contents : (input.store c).cells.contents INPUT_BUF = l.ready ++ (l.line ++ [c]) := by
    have pushed := Circular.contents_push INPUT_BUF_dvd INPUT_BUF_lt (count ▸ room) c
    rw [agrees.contents, List.append_assoc] at pushed
    exact pushed
  have longer : (input.store c).cells.count = l.ready.length + l.line.length + 1 := by
    have small : input.cells.count + 1 < 2 ^ 32 := by
      rw [count]
      exact lt_of_le_of_lt room INPUT_BUF_lt
    have pushed := @Circular.count_push _ INPUT_BUF input.cells small c
    rw [← count]
    exact pushed
  have full : (input.store c).e = (input.store c).r + BitVec.ofNat 32 INPUT_BUF ↔
      l.ready.length + (l.line ++ [c]).length = INPUT_BUF := by
    rw [List.length_append, List.length_singleton, ← Nat.add_assoc, ← longer]
    exact (@Circular.count_eq_size _ _ (input.store c).cells INPUT_BUF_lt).symm
  unfold Input.add Line.add
  simp only [full]
  split
  · refine ⟨?_, ?_, ?_, List.not_mem_nil⟩
    · change (input.store c).cells.count = _
      simp only [longer, Line.commit, List.length_append, List.length_singleton]
      omega
    · change (input.store c).cells.contents INPUT_BUF = _
      rw [contents, Line.commit, List.append_nil]
    · simp only [Line.commit, List.length_append, List.length_singleton, List.length_nil]
      omega
  next goesOn =>
    refine ⟨agrees.ready, contents, ?_, ?_⟩
    · simp only [List.length_append, List.length_singleton]
      omega
    · rw [List.mem_append, List.mem_singleton]
      rintro (old | new)
      · exact agrees.plain old
      · exact goesOn (.inl new.symm)

theorem key (agrees : Agrees input l) (c : UInt8) : Agrees (key c input).2 (l.typed c) := by
  unfold Console.key Line.typed
  split
  · exact agrees
  · split
    · exact agrees.killLine _ agrees.length_line.symm
    · split
      · by_cases isEmpty : l.line = []
        · rw [if_neg (not_not.mpr (agrees.edit_eq_write.mpr isEmpty))]
          have same : { l with line := l.line.dropLast } = l := by
            rw [isEmpty, List.dropLast_nil, ← isEmpty]
          rw [same]
          exact agrees
        · rw [if_pos fun same => isEmpty (agrees.edit_eq_write.mp same)]
          exact (agrees.erase isEmpty).1
      · rw [agrees.count]
        split
        · exact agrees.add (And.right ‹_›) _
        · exact agrees

theorem keys {input : Input} {l : Line} (agrees : Agrees input l) (cs : List UInt8) :
    Agrees (keys cs input).2 (cs.foldl Line.typed l) := by
  induction cs generalizing input l with
  | nil => exact agrees
  | cons c rest ih => exact ih (agrees.key c)

/-! ## Reading -/

theorem read (agrees : Agrees input l) (some : input.r ≠ input.w) :
    ∃ rest, l.ready = input.buf (input.r.toNat % INPUT_BUF) :: rest ∧
      Agrees { input with r := input.r + 1 } { l with ready := rest } := by
  have nonempty : l.ready ≠ [] := fun isEmpty => some (agrees.read_eq_write.mpr isEmpty)
  obtain ⟨next, rest, isReady⟩ := List.exists_cons_of_ne_nil nonempty
  have positive : 0 < input.cells.count := by
    have count : input.cells.count = _ := agrees.count
    rw [count, isReady, List.length_cons]
    omega
  have split := Circular.contents_drop INPUT_BUF_dvd positive
  rw [agrees.contents, isReady, List.cons_append] at split
  obtain ⟨head, tail⟩ := List.cons.inj split
  have ready := agrees.ready
  have room := agrees.room
  rw [isReady, List.length_cons] at ready room
  refine ⟨rest, ?_, ?_, tail.symm, ?_, agrees.plain⟩
  · rw [isReady, head]
    rfl
  · simp only [BitVec.toNat_sub, BitVec.toNat_add, Circular.toNat_one] at ready ⊢
    have := input.r.isLt
    have := input.w.isLt
    omega
  · dsimp only
    omega

end Agrees

end Xv6.Console
