import Xv6.Bio.Invariant
import Xv6.Ide.Model

/-!
# The cache as a flat disk

Beside the cache and the disk runs a function from block numbers to contents:
what `log_write` or `bwrite` was last given for a block, and what was on the
disk if there was none.  A valid buffer that nobody holds has these contents,
and so has the disk where no buffer is dirty.  Hence a clean buffer can be
recycled, and what `bread` returns is always what was last given.

The one thing asked of the processes is that they release a buffer with the
contents they last gave or found.
-/

open Function (update update_eq_self update_of_ne update_self)

namespace Xv6.Bio

open Ide (memIderw)

variable {Pid : Type}

/-! ## Transfers -/

theorem memIderw_eq_some {disksize : Nat} {buf buf' : Buf} {disk disk' : Disk}
    (returns : memIderw disksize buf disk = some (buf', disk')) :
    buf.dev = 1 ∧ buf.blockno < disksize ∧
      (buf.dirty = true ∧ buf' = { buf with dirty := false, valid := true } ∧
          disk' = update disk buf.blockno buf.data ∨
        buf.dirty = false ∧ buf' = { buf with data := disk buf.blockno, valid := true } ∧
          disk' = disk) := by
  unfold memIderw at returns
  simp only [Option.ite_none_left_eq_some] at returns
  obtain ⟨-, -, sameDev, inside, returns⟩ := returns
  refine ⟨not_not.mp sameDev, Nat.not_le.mp inside, ?_⟩
  split at returns
  next dirty =>
    cases returns
    exact .inl ⟨dirty, rfl, rfl⟩
  next clean =>
    cases returns
    exact .inr ⟨Bool.eq_false_iff.mpr clean, rfl, rfl⟩

theorem memIderw_ok (disksize : Nat) : (memIderw disksize).Ok := by
  refine ⟨fun buf disk buf' disk' returns => ?_⟩
  obtain ⟨-, -, ⟨-, rfl, -⟩ | ⟨-, rfl, -⟩⟩ := memIderw_eq_some returns
  · exact ⟨rfl, rfl, rfl⟩
  · exact ⟨rfl, rfl, rfl⟩

/-! ## What was last given -/

def Action.pid : Action Pid → Pid
  | .bread p _ _ | .bget p | .rouse p | .iderw p | .modify p _ _ | .logWrite p _ | .bwrite p _
  | .brelse p _ => p

/-- The contents of the blocks after an action: `log_write` and `bwrite` give a
block the contents of their buffer. -/
def Cache.give (s : Cache Pid Disk) (content : Disk) : Action Pid → Disk
  | .logWrite _ b | .bwrite _ b => update content (s.buf b).blockno (s.buf b).data
  | _ => content

/-- A buffer is released with the contents its block was last given. -/
def Cache.Returns (s : Cache Pid Disk) (content : Disk) : Action Pid → Prop
  | .brelse _ b => (s.buf b).data = content (s.buf b).blockno
  | _ => True

structure Flat (s : Cache Pid Disk) (content : Disk) : Prop where
  intact : Intact s
  valid : ∀ b, (s.buf b).valid = true → (s.buf b).dev = 1 ∧ (s.buf b).blockno < FSSIZE
  dirty : ∀ b, (s.buf b).dirty = true → (s.buf b).valid = true
  held : ∀ p b, s.held p b ≠ none → (s.buf b).valid = true ∨ s.pc p = .reading b
  reading : ∀ p b, s.pc p = .reading b → s.held p b ≠ none ∧ (s.buf b).valid = false
  writing : ∀ p b, s.pc p = .writing b → s.held p b ≠ none ∧ (s.buf b).dirty = true ∧
    (s.buf b).data = content (s.buf b).blockno
  idle : ∀ b, (s.buf b).busy = false → (s.buf b).valid = true →
    (s.buf b).data = content (s.buf b).blockno
  clean : ∀ n, (∀ b, (s.buf b).dev = 1 → (s.buf b).blockno = n → (s.buf b).dirty = false) →
    s.device n = content n

variable [DecidableEq Pid]

inductive Moves (s : Cache Pid Disk) : Action Pid → Cache Pid Disk → Prop where
  | call {p result dev n} :
    s.pc p = .out result → Moves s (.bread p dev n) (s.setPc p (.bget dev n))
  | sleep {p dev n b} : s.pc p = .bget dev n → Moves s (.bget p) (s.setPc p (.asleep dev n b))
  | rouse {p dev n b} : s.pc p = .asleep dev n b → Moves s (.rouse p) (s.setPc p (.bget dev n))
  | hit {p dev n b} : s.pc p = .bget dev n → (s.buf b).dev = dev → (s.buf b).blockno = n →
      (s.buf b).busy = false →
      Moves s (.bget p) (s.getBuf p dev n b { s.buf b with busy := true })
  | miss {p dev n b} : s.pc p = .bget dev n → (s.buf b).busy = false → (s.buf b).dirty = false →
      Moves s (.bget p) (s.getBuf p dev n b ⟨true, false, false, dev, n, (s.buf b).data⟩)
  | read {p b} : s.pc p = .reading b → (s.buf b).dev = 1 → (s.buf b).blockno < FSSIZE →
      Moves s (.iderw p)
        ((s.setBuf b { s.buf b with data := s.device (s.buf b).blockno, valid := true }).setPc p
          (.out (some b)))
  | write {p b} : s.pc p = .writing b → (s.buf b).dev = 1 → (s.buf b).blockno < FSSIZE →
      Moves s (.iderw p)
        { (s.setBuf b { s.buf b with dirty := false, valid := true }).setPc p (.out none) with
          device := update s.device (s.buf b).blockno (s.buf b).data }
  | modify {p b data} : s.Uses p b →
      Moves s (.modify p b data) (s.setBuf b { s.buf b with data := data })
  | logWrite {p b} : s.Uses p b →
      Moves s (.logWrite p b) (s.setBuf b { s.buf b with dirty := true })
  | bwrite {p b} : s.Uses p b →
      Moves s (.bwrite p b) ((s.setBuf b { s.buf b with dirty := true }).setPc p (.writing b))
  | brelse {p b} : s.Uses p b → Moves s (.brelse p b)
      { s.setBuf b { s.buf b with busy := false } with
        links := (s.links.unlink b).pushFront b
        pc := fun q => (s.pc q).wakeup b
        held := update s.held p (update (s.held p) b none)
        clock := s.clock + 1
        released := update s.released b (s.clock + 1) }

section Steps

variable {s after : Cache Pid Disk} {content : Disk} {p q : Pid} {b c : BufId}

theorem iderw_cases {result : Option BufId}
    (stepped : s.iderw (memIderw FSSIZE) p b result = some after) :
    (s.buf b).dev = 1 ∧ (s.buf b).blockno < FSSIZE ∧
      ((s.buf b).dirty = true ∧
          after =
            { (s.setBuf b { s.buf b with dirty := false, valid := true }).setPc p (.out result) with
            device := update s.device (s.buf b).blockno (s.buf b).data } ∨
        (s.buf b).dirty = false ∧
          after =
            (s.setBuf b { s.buf b with data := s.device (s.buf b).blockno, valid := true }).setPc p
            (.out result)) := by
  unfold Cache.iderw at stepped
  cases transfer : memIderw FSSIZE (s.buf b) s.device with
  | none =>
    rw [transfer] at stepped
    cases stepped
  | some moved =>
    rw [transfer] at stepped
    cases stepped
    obtain ⟨isDev, inside, ⟨dirty, new, disk⟩ | ⟨clean, new, disk⟩⟩ := memIderw_eq_some transfer
    · exact ⟨isDev, inside, .inl ⟨dirty, by rw [new, disk]⟩⟩
    · exact ⟨isDev, inside, .inr ⟨clean, by rw [new, disk]; rfl⟩⟩

theorem Flat.step_cases {action : Action Pid} (flat : Flat s content)
    (stepped : step (memIderw FSSIZE) s action = some after) : Moves s action after := by
  cases action with
  | bread p dev n =>
    dsimp only [step] at stepped
    split at stepped
    next result out =>
      cases stepped
      exact .call out
    · cases stepped
  | bget p =>
    dsimp only [step] at stepped
    split at stepped
    next dev n here =>
      rcases flat.intact.bget_cases stepped with
        ⟨b, -, -, -, rfl⟩ | ⟨b, isDev, isBlock, idle, rfl⟩ | ⟨b, -, idle, clean, rfl⟩
      · exact .sleep here
      · exact .hit here isDev isBlock idle
      · exact .miss here idle clean
    · cases stepped
  | rouse p =>
    dsimp only [step] at stepped
    split at stepped
    next dev n b here =>
      cases stepped
      exact .rouse here
    · cases stepped
  | iderw p =>
    dsimp only [step] at stepped
    split at stepped
    next b here =>
      obtain ⟨isDev, inside, ⟨dirty, -⟩ | ⟨-, rfl⟩⟩ := iderw_cases stepped
      · have invalid := (flat.reading p b here).2
        rw [flat.dirty b dirty] at invalid
        cases invalid
      · exact .read here isDev inside
    next b here =>
      obtain ⟨isDev, inside, ⟨-, rfl⟩ | ⟨clean, -⟩⟩ := iderw_cases stepped
      · exact .write here isDev inside
      · rw [(flat.writing p b here).2.1] at clean
        cases clean
    · cases stepped
  | modify p b data =>
    dsimp only [step] at stepped
    split at stepped
    next uses =>
      cases stepped
      exact .modify uses
    · cases stepped
  | logWrite p b =>
    dsimp only [step] at stepped
    split at stepped
    next uses =>
      cases stepped
      exact .logWrite uses
    · cases stepped
  | bwrite p b =>
    dsimp only [step] at stepped
    split at stepped
    swap
    · cases stepped
    rename_i uses
    unfold Cache.bwrite at stepped
    split at stepped
    · cases stepped
      exact .bwrite uses
    · cases stepped
  | brelse p b =>
    dsimp only [step] at stepped
    split at stepped
    next uses =>
      unfold Cache.brelse at stepped
      split at stepped
      · cases stepped
        exact .brelse uses
      · cases stepped
    · cases stepped

/-! ## Steps -/

omit [DecidableEq Pid] in
theorem Flat.apart (flat : Flat s content) (other : c ≠ b) (isDev : (s.buf b).dev = 1)
    (valid : (s.buf c).valid = true) : (s.buf c).blockno ≠ (s.buf b).blockno := by
  intro same
  have onDisk := (flat.valid c valid).1
  exact other (flat.intact.unique c b (by rw [onDisk]; decide) (onDisk.trans isDev.symm) same)

omit [DecidableEq Pid] in
theorem Flat.uses (flat : Flat s content) (uses : s.Uses p b) :
    (s.buf b).valid = true ∧ (s.buf b).dev = 1 ∧ (s.buf b).blockno < FSSIZE := by
  obtain ⟨⟨result, out⟩, holds⟩ := uses
  rcases flat.held p b holds with valid | reading
  · exact ⟨valid, flat.valid b valid⟩
  · rw [out] at reading
    cases reading

omit [DecidableEq Pid] in
theorem Flat.not_held (flat : Flat s content) (idle : (s.buf b).busy = false)
    (holds : s.held q c ≠ none) : c ≠ b := by
  rintro rfl
  rw [(flat.intact.busy c).mpr ⟨q, holds⟩] at idle
  cases idle

theorem Flat.setPc (flat : Flat s content) {pc : Pc} (intact : Intact (s.setPc p pc))
    (before : ∀ c, s.pc p ≠ .reading c) (reading : ∀ c, pc ≠ .reading c)
    (writing : ∀ c, pc ≠ .writing c) : Flat (s.setPc p pc) content := by
  refine ⟨intact, flat.valid, flat.dirty, ?_, ?_, ?_, flat.idle, flat.clean⟩
  · intro q c holds
    refine (flat.held q c holds).imp id fun early => ?_
    dsimp only [Cache.setPc]
    rw [update_of_ne]
    · exact early
    · rintro rfl
      exact before c early
  · intro q c
    dsimp only [Cache.setPc]
    by_cases here : q = p
    · subst here
      rw [update_self]
      exact fun early => absurd early (reading c)
    · rw [update_of_ne here]
      exact flat.reading q c
  · intro q c
    dsimp only [Cache.setPc]
    by_cases here : q = p
    · subst here
      rw [update_self]
      exact fun early => absurd early (writing c)
    · rw [update_of_ne here]
      exact flat.writing q c

theorem Flat.getBuf (flat : Flat s content) {dev n : Nat} {buf : Buf}
    (intact : Intact (s.getBuf p dev n b buf)) (here : s.pc p = .bget dev n)
    (idle : (s.buf b).busy = false) (busy : buf.busy = true)
    (valid : buf.valid = true → buf.dev = 1 ∧ buf.blockno < FSSIZE)
    (dirty : buf.dirty = true → buf.valid = true)
    (pinned : (s.buf b).dirty = true →
      buf.dev = (s.buf b).dev ∧ buf.blockno = (s.buf b).blockno ∧ buf.dirty = true) :
    Flat (s.getBuf p dev n b buf) content := by
  have self : (s.getBuf p dev n b buf).buf b = buf := by rw [getBuf_buf, update_self]
  have others : ∀ c, c ≠ b → (s.getBuf p dev n b buf).buf c = s.buf c := by
    intro c other
    rw [getBuf_buf, update_of_ne other]
  have moved : (s.getBuf p dev n b buf).pc p = if buf.valid then .out (some b) else .reading b := by
    dsimp only [Cache.getBuf, Cache.setPc]
    rw [update_self]
  have stays : ∀ q, q ≠ p → (s.getBuf p dev n b buf).pc q = s.pc q := by
    intro q other
    dsimp only [Cache.getBuf, Cache.setPc, Cache.setBuf]
    rw [update_of_ne other]
  refine ⟨intact, ?_, ?_, ?_, ?_, ?_, ?_, ?_⟩
  · intro c
    by_cases same : c = b
    · rw [same, self]
      exact valid
    · rw [others c same]
      exact flat.valid c
  · intro c
    by_cases same : c = b
    · rw [same, self]
      exact dirty
    · rw [others c same]
      exact flat.dirty c
  · intro q c holds
    by_cases same : q = p ∧ c = b
    · obtain ⟨rfl, rfl⟩ := same
      rw [self, moved]
      cases buf.valid with
      | true => exact .inl rfl
      | false => exact .inr rfl
    · rw [getBuf_held_ne same] at holds
      have other := flat.not_held idle holds
      rw [others c other]
      rcases flat.held q c holds with known | early
      · exact .inl known
      · refine .inr ?_
        rw [stays q]
        · exact early
        · rintro rfl
          rw [here] at early
          cases early
  · intro q c
    by_cases same : q = p
    · subst same
      rw [moved]
      cases isValid : buf.valid with
      | true =>
        intro absurdity
        cases absurdity
      | false =>
        intro early
        cases early
        rw [self, getBuf_held_self]
        exact ⟨Option.some_ne_none _, isValid⟩
    · rw [stays q same]
      intro early
      have known := flat.reading q c early
      rw [getBuf_held_ne fun both => same both.1, others c (flat.not_held idle known.1)]
      exact known
  · intro q c
    by_cases same : q = p
    · subst same
      rw [moved]
      cases buf.valid <;> exact nofun
    · rw [stays q same]
      intro late
      have known := flat.writing q c late
      rw [getBuf_held_ne fun both => same both.1, others c (flat.not_held idle known.1)]
      exact known
  · intro c
    by_cases same : c = b
    · rw [same, self, busy]
      exact nofun
    · rw [others c same]
      exact flat.idle c
  · intro m spotless
    refine flat.clean m fun c isDev isBlock => ?_
    by_cases same : c = b
    · subst same
      by_contra stained
      rw [Bool.not_eq_false] at stained
      obtain ⟨sameDev, sameBlock, still⟩ := pinned stained
      have clean := spotless c (by rw [self, sameDev, isDev]) (by rw [self, sameBlock, isBlock])
      rw [self, still] at clean
      cases clean
    · have clean := spotless c
      rw [others c same] at clean
      exact clean isDev isBlock

/-- The process that holds a buffer changes it, the contents given to its block
or the block on the disk. -/
theorem Flat.setBuf (flat : Flat s content) {buf : Buf} {pc : Pc} {device given : Disk}
    (intact : Intact { (s.setBuf b buf).setPc p pc with device := device })
    (holds : s.held p b ≠ none) (before : ∀ c, s.pc p = .reading c → c = b)
    (busy : buf.busy = (s.buf b).busy) (sameDev : buf.dev = (s.buf b).dev)
    (sameBlock : buf.blockno = (s.buf b).blockno)
    (isDev : (s.buf b).dev = 1) (inside : (s.buf b).blockno < FSSIZE) (valid : buf.valid = true)
    (reading : ∀ c, pc ≠ .reading c)
    (writing : ∀ c, pc = .writing c → c = b ∧ buf.dirty = true ∧ buf.data = given (s.buf b).blockno)
    (elsewhere : ∀ n, n ≠ (s.buf b).blockno → device n = s.device n ∧ given n = content n)
    (clean : buf.dirty = false → device (s.buf b).blockno = given (s.buf b).blockno) :
    Flat { (s.setBuf b buf).setPc p pc with device := device } given := by
  have self : update s.buf b buf b = buf := update_self b buf s.buf
  have others : ∀ c, c ≠ b → update s.buf b buf c = s.buf c :=
    fun c other => update_of_ne other buf s.buf
  have alone : ∀ q c, q ≠ p → s.held q c ≠ none → c ≠ b := by
    rintro q c other holdsToo rfl
    exact other (flat.intact.exclusive q p c holdsToo holds)
  have taken : (s.buf b).busy = true := (flat.intact.busy b).mpr ⟨p, holds⟩
  refine ⟨intact, ?_, ?_, ?_, ?_, ?_, ?_, ?_⟩ <;> dsimp only [Cache.setPc, Cache.setBuf]
  · intro c
    by_cases same : c = b
    · rw [same, self, sameDev, sameBlock]
      exact fun _ => ⟨isDev, inside⟩
    · rw [others c same]
      exact flat.valid c
  · intro c
    by_cases same : c = b
    · rw [same, self]
      exact fun _ => valid
    · rw [others c same]
      exact flat.dirty c
  · intro q c holdsToo
    by_cases same : c = b
    · rw [same, self]
      exact .inl valid
    · rw [others c same]
      refine (flat.held q c holdsToo).imp id fun early => ?_
      rw [update_of_ne]
      · exact early
      · rintro rfl
        exact same (before c early)
  · intro q c
    by_cases same : q = p
    · subst same
      rw [update_self]
      exact fun early => absurd early (reading c)
    · rw [update_of_ne same]
      intro early
      have known := flat.reading q c early
      rw [others c (alone q c same known.1)]
      exact known
  · intro q c
    by_cases same : q = p
    · subst same
      rw [update_self]
      intro late
      obtain ⟨rfl, stained, written⟩ := writing c late
      rw [self, sameBlock]
      exact ⟨holds, stained, written⟩
    · rw [update_of_ne same]
      intro late
      have known := flat.writing q c late
      have other := alone q c same known.1
      have apart := flat.apart other isDev (flat.dirty c known.2.1)
      rw [others c other, (elsewhere _ apart).2]
      exact known
  · intro c
    by_cases same : c = b
    · rw [same, self, busy, taken]
      exact nofun
    · rw [others c same]
      intro idle isValid
      rw [(elsewhere _ (flat.apart same isDev isValid)).2]
      exact flat.idle c idle isValid
  · intro m spotless
    by_cases same : m = (s.buf b).blockno
    · subst same
      refine clean ?_
      have unstained := spotless b
      rw [self] at unstained
      exact unstained (sameDev.trans isDev) sameBlock
    · rw [(elsewhere m same).1, (elsewhere m same).2]
      refine flat.clean m fun c onDisk isBlock => ?_
      have unstained := spotless c
      rw [others c] at unstained
      · exact unstained onDisk isBlock
      · rintro rfl
        exact same isBlock.symm

omit [DecidableEq Pid] in
theorem Flat.current (flat : Flat s content) (isDev : (s.buf b).dev = 1)
    (unstained : (s.buf b).dirty = false) :
    s.device (s.buf b).blockno = content (s.buf b).blockno := by
  refine flat.clean _ fun c onDisk isBlock => ?_
  have same : c = b := flat.intact.unique c b (by rw [onDisk]; decide)
    (onDisk.trans isDev.symm) isBlock
  rw [same]
  exact unstained

omit [DecidableEq Pid] in
theorem Flat.unstained (flat : Flat s content) (here : s.pc p = .reading b) :
    (s.buf b).dirty = false := by
  by_contra stained
  rw [Bool.not_eq_false] at stained
  have invalid := (flat.reading p b here).2
  rw [flat.dirty b stained] at invalid
  cases invalid

theorem setPc_self : s.setPc p (s.pc p) = s := by
  unfold Cache.setPc
  rw [update_eq_self]

theorem Flat.use (flat : Flat s content) {buf : Buf} {given : Disk}
    (intact : Intact (s.setBuf b buf)) (uses : s.Uses p b)
    (busy : buf.busy = (s.buf b).busy) (sameDev : buf.dev = (s.buf b).dev)
    (sameBlock : buf.blockno = (s.buf b).blockno) (valid : buf.valid = (s.buf b).valid)
    (elsewhere : ∀ n, n ≠ (s.buf b).blockno → given n = content n)
    (clean : buf.dirty = false → s.device (s.buf b).blockno = given (s.buf b).blockno) :
    Flat (s.setBuf b buf) given := by
  obtain ⟨isValid, isDev, inside⟩ := flat.uses uses
  obtain ⟨⟨result, out⟩, holds⟩ := uses
  have same : { (s.setBuf b buf).setPc p (.out result) with device := s.device } =
      s.setBuf b buf := by
    rw [← out]
    exact setPc_self (s := s.setBuf b buf) (p := p)
  rw [← same] at intact ⊢
  exact flat.setBuf intact holds
    (fun c early => by rw [out] at early; cases early) busy sameDev sameBlock
    isDev inside (valid.trans isValid) (fun _ => nofun) (fun _ => nofun)
    (fun n other => ⟨rfl, elsewhere n other⟩) clean

theorem Pc.wakeup_reading {pc : Pc} : pc.wakeup b = .reading c ↔ pc = .reading c := by
  cases pc with
  | asleep dev n chan =>
    rw [Pc.wakeup]
    split <;> simp
  | _ => rfl

theorem Pc.wakeup_writing {pc : Pc} : pc.wakeup b = .writing c ↔ pc = .writing c := by
  cases pc with
  | asleep dev n chan =>
    rw [Pc.wakeup]
    split <;> simp
  | _ => rfl

omit [DecidableEq Pid] in
theorem Flat.brelse (flat : Flat s content) (intact : Intact after) (uses : s.Uses p b)
    (given : (s.buf b).data = content (s.buf b).blockno)
    (bufs : after.buf = update s.buf b { s.buf b with busy := false })
    (device : after.device = s.device) (pcs : ∀ q, after.pc q = (s.pc q).wakeup b)
    (held : ∀ q c, after.held q c ≠ none → s.held q c ≠ none)
    (kept : ∀ q c, s.held q c ≠ none → c ≠ b → after.held q c ≠ none) : Flat after content := by
  obtain ⟨isValid, isDev, inside⟩ := flat.uses uses
  obtain ⟨⟨result, out⟩, holds⟩ := uses
  have flags : ∀ c, (after.buf c).valid = (s.buf c).valid ∧ (after.buf c).dirty = (s.buf c).dirty ∧
      (after.buf c).dev = (s.buf c).dev ∧ (after.buf c).blockno = (s.buf c).blockno ∧
      (after.buf c).data = (s.buf c).data := by
    intro c
    rw [bufs]
    by_cases same : c = b
    · rw [same, update_self]
      exact ⟨rfl, rfl, rfl, rfl, rfl⟩
    · rw [update_of_ne same]
      exact ⟨rfl, rfl, rfl, rfl, rfl⟩
  have inCall : ∀ q c, s.pc q = .reading c ∨ s.pc q = .writing c → s.held q c ≠ none → c ≠ b := by
    rintro q c within holdsToo rfl
    rw [flat.intact.exclusive q p c holdsToo holds, out] at within
    rcases within with absurdity | absurdity <;> cases absurdity
  refine ⟨intact, ?_, ?_, ?_, ?_, ?_, ?_, ?_⟩
  · intro c
    rw [(flags c).1, (flags c).2.2.1, (flags c).2.2.2.1]
    exact flat.valid c
  · intro c
    rw [(flags c).1, (flags c).2.1]
    exact flat.dirty c
  · intro q c holdsToo
    rw [(flags c).1, pcs q, Pc.wakeup_reading]
    exact flat.held q c (held q c holdsToo)
  · intro q c
    rw [(flags c).1, pcs q, Pc.wakeup_reading]
    intro early
    have known := flat.reading q c early
    exact ⟨kept q c known.1 (inCall q c (.inl early) known.1), known.2⟩
  · intro q c
    rw [(flags c).2.1, (flags c).2.2.2.1, (flags c).2.2.2.2, pcs q, Pc.wakeup_writing]
    intro late
    have known := flat.writing q c late
    exact ⟨kept q c known.1 (inCall q c (.inr late) known.1), known.2⟩
  · intro c
    rw [(flags c).1, (flags c).2.2.2.1, (flags c).2.2.2.2]
    by_cases same : c = b
    · rw [same]
      exact fun _ _ => given
    · rw [bufs, update_of_ne same]
      exact flat.idle c
  · intro m spotless
    rw [device]
    refine flat.clean m fun c onDisk isBlock => ?_
    have unstained := spotless c
    rw [(flags c).2.1, (flags c).2.2.1, (flags c).2.2.2.1] at unstained
    exact unstained onDisk isBlock

theorem Flat.step {action : Action Pid} (flat : Flat s content)
    (stepped : step (memIderw FSSIZE) s action = some after) (returns : s.Returns content action) :
    Flat after (s.give content action) := by
  have intact := flat.intact.step (memIderw_ok FSSIZE) stepped
  have moves := flat.step_cases stepped
  cases moves with
  | call out =>
    exact flat.setPc intact (by rw [out]; exact fun _ => nofun) (fun _ => nofun) (fun _ => nofun)
  | sleep here =>
    exact flat.setPc intact (by rw [here]; exact fun _ => nofun) (fun _ => nofun) (fun _ => nofun)
  | rouse here =>
    exact flat.setPc intact (by rw [here]; exact fun _ => nofun) (fun _ => nofun) (fun _ => nofun)
  | @hit p dev n b here isDev isBlock idle =>
    exact flat.getBuf intact here idle rfl (flat.valid b) (flat.dirty b)
      fun dirty => ⟨rfl, rfl, dirty⟩
  | @miss p dev n b here idle clean =>
    refine flat.getBuf intact here idle rfl nofun nofun fun dirty => ?_
    rw [clean] at dirty
    cases dirty
  | @read p b here isDev inside =>
    have known := flat.reading p b here
    exact flat.setBuf intact known.1
      (fun c early => by rw [here] at early; cases early; rfl) rfl rfl rfl
      isDev inside rfl (fun _ => nofun) (fun _ => nofun) (fun _ _ => ⟨rfl, rfl⟩)
      (flat.current isDev)
  | @write p b here isDev inside =>
    have known := flat.writing p b here
    refine flat.setBuf intact known.1
      (fun c early => by rw [here] at early; cases early) rfl rfl rfl
      isDev inside rfl (fun _ => nofun) (fun _ => nofun)
      (fun n other => ⟨update_of_ne other _ _, rfl⟩) fun _ => ?_
    rw [update_self]
    exact known.2.2
  | @modify p b data uses =>
    exact flat.use intact uses rfl rfl rfl rfl (fun _ _ => rfl) (flat.current (flat.uses uses).2.1)
  | @logWrite p b uses =>
    exact flat.use intact uses rfl rfl rfl rfl (fun n other => update_of_ne other _ _) nofun
  | @bwrite p b uses =>
    obtain ⟨isValid, isDev, inside⟩ := flat.uses uses
    obtain ⟨⟨result, out⟩, holds⟩ := uses
    refine flat.setBuf intact holds (fun c early => by rw [out] at early; cases early) rfl rfl rfl
      isDev inside isValid (fun _ => nofun) ?_ (fun n other => ⟨rfl, update_of_ne other _ _⟩) nofun
    intro c late
    cases late
    refine ⟨rfl, rfl, ?_⟩
    dsimp only [Cache.give]
    rw [update_self]
  | @brelse p b uses =>
    refine flat.brelse intact uses returns rfl rfl (fun _ => rfl) ?_ ?_
    · intro q c
      dsimp only
      rw [update_held]
      split
      · exact fun absurdity => absurd rfl absurdity
      · exact id
    · intro q c holds other
      dsimp only
      rw [update_held, if_neg fun both => other both.2]
      exact holds

/-! ## What other processes see -/

theorem Moves.pc_of_ne {action : Action Pid} (moves : Moves s action after)
    (other : q ≠ action.pid) : after.pc q = s.pc q ∨ ∃ b, after.pc q = (s.pc q).wakeup b := by
  cases moves with
  | modify uses => exact .inl rfl
  | logWrite uses => exact .inl rfl
  | brelse uses => exact .inr ⟨_, rfl⟩
  | _ => exact .inl (update_of_ne other _ _)

theorem Moves.held_of_ne {action : Action Pid} (moves : Moves s action after)
    (other : q ≠ action.pid) : after.held q = s.held q := by
  cases moves with
  | hit | miss => exact update_of_ne other _ _
  | brelse uses => exact update_of_ne other _ _
  | _ => rfl

theorem Flat.changed {action : Action Pid} (flat : Flat s content) (moves : Moves s action after)
    (changed : after.buf c ≠ s.buf c) : (s.buf c).busy = false ∨ s.held action.pid c ≠ none := by
  have here : ∀ b buf, after.buf = update s.buf b buf → c = b := by
    intro b buf updated
    by_contra other
    rw [updated, update_of_ne other] at changed
    exact changed rfl
  cases moves with
  | hit _ _ _ idle => exact .inl (here _ _ rfl ▸ idle)
  | miss _ idle _ => exact .inl (here _ _ rfl ▸ idle)
  | read reading => exact .inr (here _ _ rfl ▸ (flat.reading _ _ reading).1)
  | write writing => exact .inr (here _ _ rfl ▸ (flat.writing _ _ writing).1)
  | modify uses => exact .inr (here _ _ rfl ▸ uses.2)
  | logWrite uses => exact .inr (here _ _ rfl ▸ uses.2)
  | bwrite uses => exact .inr (here _ _ rfl ▸ uses.2)
  | brelse uses => exact .inr (here _ _ rfl ▸ uses.2)
  | _ => exact absurd rfl changed

theorem Flat.buf_of_ne {action : Action Pid} (flat : Flat s content) (moves : Moves s action after)
    (other : q ≠ action.pid) (holds : s.held q c ≠ none) : after.buf c = s.buf c := by
  by_contra changed
  rcases flat.changed moves changed with idle | mine
  · exact flat.not_held idle holds rfl
  · exact other (flat.intact.exclusive q _ c holds mine)

theorem Flat.given {action : Action Pid} (flat : Flat s content)
    (moves : Moves s action after) {n : Nat} (changed : s.give content action n ≠ content n) :
    ∃ b, s.Uses action.pid b ∧ (s.buf b).blockno = n ∧ (s.buf b).dev = 1 := by
  have updated : ∀ b, s.Uses action.pid b →
      update content (s.buf b).blockno (s.buf b).data n ≠ content n →
      ∃ b, s.Uses action.pid b ∧ (s.buf b).blockno = n ∧ (s.buf b).dev = 1 := by
    intro b uses differs
    refine ⟨b, uses, ?_, (flat.uses uses).2.1⟩
    by_contra other
    exact differs (update_of_ne (Ne.symm other) _ _)
  cases moves with
  | logWrite uses => exact updated _ uses changed
  | bwrite uses => exact updated _ uses changed
  | _ => exact absurd rfl changed

theorem Flat.give_of_ne {action : Action Pid} (flat : Flat s content) (moves : Moves s action after)
    (other : q ≠ action.pid) (holds : s.held q c ≠ none) (isDev : (s.buf c).dev = 1) :
    s.give content action (s.buf c).blockno = content (s.buf c).blockno := by
  by_contra changed
  obtain ⟨b, uses, isBlock, onDisk⟩ := flat.given moves changed
  have same : b = c :=
    flat.intact.unique b c (by rw [onDisk]; decide) (onDisk.trans isDev.symm) isBlock
  rw [same] at uses
  exact other (flat.intact.exclusive q _ c holds uses.2)

/-! ## `bread` -/

def Cache.Reads (s : Cache Pid Disk) (p : Pid) (dev n : Nat) : Prop :=
  s.pc p = .bget dev n ∨ (∃ b, s.pc p = .asleep dev n b) ∨
    ∃ b, s.pc p = .reading b ∧ s.held p b = some (dev, n)

omit [DecidableEq Pid] in
theorem Cache.Reads.bget {dev n d m : Nat} (reads : s.Reads p dev n) (here : s.pc p = .bget d m) :
    d = dev ∧ m = n := by
  unfold Cache.Reads at reads
  rw [here] at reads
  rcases reads with same | ⟨b, absurdity⟩ | ⟨b, absurdity, -⟩
  · cases same
    exact ⟨rfl, rfl⟩
  · cases absurdity
  · cases absurdity

omit [DecidableEq Pid] in
theorem Cache.Reads.reading {dev n : Nat} (reads : s.Reads p dev n) (here : s.pc p = .reading b) :
    s.held p b = some (dev, n) := by
  unfold Cache.Reads at reads
  rw [here] at reads
  rcases reads with absurdity | ⟨c, absurdity⟩ | ⟨c, same, holds⟩
  · cases absurdity
  · cases absurdity
  · cases same
    exact holds

omit [DecidableEq Pid] in
theorem Cache.Reads.not_writing {dev n : Nat} (reads : s.Reads p dev n) (b : BufId) :
    s.pc p ≠ .writing b := by
  intro late
  unfold Cache.Reads at reads
  rw [late] at reads
  rcases reads with absurdity | ⟨c, absurdity⟩ | ⟨c, absurdity, -⟩ <;> cases absurdity

theorem Flat.bread_returns {action : Action Pid} (flat : Flat s content)
    (stepped : Bio.step (memIderw FSSIZE) s action = some after) {dev n : Nat}
    (reads : s.Reads p dev n) {result : Option BufId} (out : after.pc p = .out result) :
    ∃ b, result = some b ∧ after.held p b = some (dev, n) ∧ (after.buf b).dev = dev ∧
      (after.buf b).blockno = n ∧ (after.buf b).data = content n ∧
        s.give content action = content := by
  have moves := flat.step_cases stepped
  have within : ∀ result, s.pc p ≠ .out result := by
    intro result early
    rcases reads with here | ⟨b, here⟩ | ⟨b, here, -⟩ <;> rw [early] at here <;> cases here
  have notUses : ∀ b, ¬s.Uses p b := by
    rintro b ⟨⟨result, early⟩, -⟩
    exact within result early
  have mine : action.pid = p := by
    by_contra other
    rcases moves.pc_of_ne (Ne.symm other) with same | ⟨b, same⟩
    · exact within result (same ▸ out)
    · rw [same] at out
      cases here : s.pc p with
      | out early => exact within early here
      | asleep d m chan =>
        rw [here, Pc.wakeup] at out
        split at out <;> cases out
      | _ =>
        rw [here] at out
        cases out
  cases moves with
  | call early =>
    obtain rfl := mine
    exact absurd early (within _)
  | sleep here =>
    obtain rfl := mine
    cases (update_self _ _ _).symm.trans out
  | rouse here =>
    obtain rfl := mine
    cases (update_self _ _ _).symm.trans out
  | @hit q d m b here isDev isBlock idle =>
    obtain rfl : q = p := mine
    obtain ⟨rfl, rfl⟩ := reads.bget here
    dsimp only [Cache.getBuf, Cache.setPc] at out
    rw [update_self] at out
    split at out
    next valid =>
      cases out
      refine ⟨b, rfl, getBuf_held_self, ?_⟩
      rw [getBuf_buf, update_self]
      refine ⟨isDev, isBlock, ?_, rfl⟩
      rw [← isBlock]
      exact flat.idle b idle valid
    · cases out
  | @miss q d m b here idle clean =>
    obtain rfl : q = p := mine
    dsimp only [Cache.getBuf, Cache.setPc] at out
    rw [update_self] at out
    cases out
  | @read q b here isDev inside =>
    obtain rfl : q = p := mine
    have holds := reads.reading here
    obtain ⟨askedDev, askedBlock⟩ := flat.intact.asked q b dev n holds
    dsimp only [Cache.setPc] at out
    rw [update_self] at out
    cases out
    refine ⟨b, rfl, holds, ?_⟩
    dsimp only [Cache.setPc, Cache.setBuf]
    rw [update_self]
    refine ⟨askedDev, askedBlock, ?_, rfl⟩
    rw [← askedBlock]
    exact flat.current isDev (flat.unstained here)
  | @write q b here isDev inside =>
    obtain rfl : q = p := mine
    exact absurd here (reads.not_writing b)
  | modify uses =>
    obtain rfl := mine
    exact absurd uses (notUses _)
  | logWrite uses =>
    obtain rfl := mine
    exact absurd uses (notUses _)
  | bwrite uses =>
    obtain rfl := mine
    exact absurd uses (notUses _)
  | brelse uses =>
    obtain rfl := mine
    exact absurd uses (notUses _)

end Steps

omit [DecidableEq Pid] in
theorem flat_binit (disk : Disk) : Flat (binit Pid disk) disk := by
  refine ⟨intact_binit disk, fun b => nofun, fun b => nofun, fun p b holds => absurd rfl holds,
    fun p b => nofun, fun p b => nofun, fun b _ => nofun, fun n _ => rfl⟩

end Xv6.Bio
