import Xv6.Lib.Mutex
import Xv6.Lib.Transition
import Xv6.Proc.Table

/-!
# sleep and wakeup

Any number of waiters and signallers that share a lock `lk`, a predicate it
protects and a channel.  A step is one operation on a lock, on a field of
`struct proc` or on the predicate, so the processes interleave inside `sleep`
and `wakeup` as they do on separate CPUs.

`sleep` acquires `ptable.lock` before it releases `lk`.  A process that has
found the predicate false therefore keeps out every signaller until it is
SLEEPING in all but name, and the wakeup of a signaller that comes later has to
wait for `ptable.lock`.  The invariant says this for all processes at once: if
the predicate is true, some signaller still owes a wakeup to every process that
is asleep or past the point of no return.
-/

open Function (update update_of_ne update_self)

namespace Xv6

namespace Sleep

inductive Pc (n : Nat) where
  /-- neither waiting nor signalling -/
  | out
  /-- a waiter that holds `lk` and is about to test the predicate -/
  | test
  /-- a waiter that holds `lk` and has found the predicate true -/
  | found
  /-- in `sleep`, before `acquire(&ptable.lock)` -/
  | entered
  /-- in `sleep`, before `release(lk)` -/
  | handOver
  /-- in `sleep`, before `proc->chan = chan` -/
  | setChan
  /-- in `sleep`, before `proc->state = SLEEPING` -/
  | setState
  /-- in `sched`; the scheduler has yet to release `ptable.lock` -/
  | sched
  | away
  /-- switched back to, with `ptable.lock` held, before `proc->chan = 0` -/
  | tidy
  /-- in `sleep`, before `release(&ptable.lock)` -/
  | leave
  /-- in `sleep`, before `acquire(lk)` -/
  | relock
  /-- a signaller that holds `lk`, before it makes the predicate true -/
  | change
  /-- a signaller that has made the predicate true and holds `lk` -/
  | changed
  /-- a signaller that has released `lk` and is about to call `wakeup` -/
  | released
  /-- in the loop of `wakeup1`, with the slots still to visit -/
  | waking (locked : Bool) (slots : List (Fin n))
  /-- a signaller whose `wakeup` has returned before it releases `lk` -/
  | woke
  deriving DecidableEq, Repr

structure State (n : Nat) where
  /-- what the waiters wait for -/
  predicate : Bool
  lk : Option (Fin n)
  ptable : Option (Fin n)
  state : Fin n → ProcState
  chan : Fin n → Bool
  pc : Fin n → Pc n

variable {n : Nat}

/-- What a process does next, where it has a choice. -/
inductive Choice where
  | wait
  | signal
  /-- with the predicate found true, make it false -/
  | consume
  /-- a signaller that calls `wakeup` after `release(lk)` -/
  | releaseFirst
  | go
  deriving DecidableEq, Repr

abbrev Action (n : Nat) := Fin n × Choice

namespace State

def initial (n : Nat) (predicate : Bool) : State n where
  predicate := predicate
  lk := none
  ptable := none
  state _ := .running
  chan _ := false
  pc _ := .out

def goto (s : State n) (p : Fin n) (pc : Pc n) : State n :=
  { s with pc := update s.pc p pc }

/-- `acquire`, which spins as long as the lock is held. -/
def acquireLk (s : State n) (p : Fin n) : Option (State n) :=
  if s.lk = none then some { s with lk := some p } else none

def acquirePtable (s : State n) (p : Fin n) : Option (State n) :=
  if s.ptable = none then some { s with ptable := some p } else none

def setState (s : State n) (p : Fin n) (state : ProcState) : State n :=
  { s with state := update s.state p state }

def setChan (s : State n) (p : Fin n) (chan : Bool) : State n :=
  { s with chan := update s.chan p chan }

def wakeSlot (s : State n) (p : Fin n) : State n :=
  if s.state p = .sleeping ∧ s.chan p = true then s.setState p .runnable else s

end State

open State

def step (s : State n) : Action n → Option (State n)
  | (p, .wait) => if s.pc p = .out then (s.acquireLk p).map (·.goto p .test) else none
  | (p, .signal) => if s.pc p = .out then (s.acquireLk p).map (·.goto p .change) else none
  | (p, .consume) => if s.pc p = .found then some { s with predicate := false } else none
  | (p, .releaseFirst) =>
    if s.pc p = .changed then some ({ s with lk := none }.goto p .released) else none
  | (p, .go) =>
    match s.pc p with
    | .out => none
    | .test => some (s.goto p (if s.predicate then .found else .entered))
    | .found => some ({ s with lk := none }.goto p .out)
    | .entered => (s.acquirePtable p).map (·.goto p .handOver)
    | .handOver => some ({ s with lk := none }.goto p .setChan)
    | .setChan => some ((s.setChan p true).goto p .setState)
    | .setState => some ((s.setState p .sleeping).goto p .sched)
    | .sched => some ({ s with ptable := none }.goto p .away)
    | .away =>
      -- the scheduler takes `ptable.lock` and hands it over to the process
      if s.state p = .runnable then
        (s.acquirePtable p).map fun s => (s.setState p .running).goto p .tidy
      else none
    | .tidy => some ((s.setChan p false).goto p .leave)
    | .leave => some ({ s with ptable := none }.goto p .relock)
    | .relock => (s.acquireLk p).map (·.goto p .test)
    | .change => some ({ s with predicate := true }.goto p .changed)
    | .changed => (s.acquirePtable p).map (·.goto p (.waking true (List.finRange n)))
    | .released => (s.acquirePtable p).map (·.goto p (.waking false (List.finRange n)))
    | .waking locked (slot :: slots) => some ((s.wakeSlot slot).goto p (.waking locked slots))
    | .waking locked [] => some ({ s with ptable := none }.goto p (if locked then .woke else .out))
    | .woke => some ({ s with lk := none }.goto p .out)

/-- The signaller has made the predicate true and its wakeup is not complete. -/
def Pc.Signalling : Pc n → Prop
  | .changed => True
  | .released => True
  | .waking _ _ => True
  | _ => False

def Pc.HoldsLk : Pc n → Prop
  | .test | .found | .entered | .handOver | .change | .changed | .woke => True
  | .waking locked _ => locked = true
  | _ => False

def Pc.HoldsPtable : Pc n → Prop
  | .handOver | .setChan | .setState | .sched | .tidy | .leave => True
  | .waking _ _ => True
  | _ => False

/-- The process has found the predicate false and still holds `lk`. -/
def Pc.Refused : Pc n → Prop
  | .entered | .handOver => True
  | _ => False

/-- The process is past `release(lk)` on its way to sleep. -/
def Pc.Falling : Pc n → Prop
  | .setChan | .setState | .sched => True
  | _ => False

/-- The process sleeps, or will without testing again. -/
def State.Asleep (s : State n) (p : Fin n) : Prop :=
  (s.pc p).Falling ∨ s.pc p = .away ∧ s.state p = .sleeping

/-- A wakeup that will reach `p` is due from `q`. -/
def State.Owes (s : State n) (q p : Fin n) : Prop :=
  match s.pc q with
  | .changed => True
  | .released => True
  | .waking _ slots => p ∈ slots
  | _ => False

structure Inv (s : State n) : Prop where
  lk : Mutex s.lk s.pc Pc.HoldsLk
  ptable : Mutex s.ptable s.pc Pc.HoldsPtable
  sleeping : ∀ p, s.state p = .sleeping → s.pc p = .sched ∨ s.pc p = .away
  chan : ∀ p, s.pc p = .setState ∨ s.pc p = .sched ∨ s.pc p = .away → s.chan p = true
  refused : ∀ p, (s.pc p).Refused → s.predicate = false
  owed : s.predicate = true → ∀ p, s.Asleep p → ∃ q, s.Owes q p

theorem initial_inv (predicate : Bool) : Inv (initial n predicate) where
  lk _ := ⟨nofun, False.elim⟩
  ptable _ := ⟨nofun, False.elim⟩
  sleeping _ asleep := nomatch asleep
  chan _ pc := by rcases pc with pc | pc | pc <;> cases pc
  refused _ := False.elim
  owed _ p asleep := by
    rcases asleep with falling | ⟨pc, -⟩
    · exact falling.elim
    · cases pc

section Steps

variable {s : State n} {p : Fin n} {next : Pc n}

@[simp]
theorem goto_pc_self (s : State n) (p : Fin n) (next : Pc n) : (s.goto p next).pc p = next :=
  update_self _ _ _

theorem goto_pc_ne (s : State n) {p q : Fin n} (other : q ≠ p) (next : Pc n) :
    (s.goto p next).pc q = s.pc q := update_of_ne other _ _

theorem Inv.move (inv : Inv s) {after : State n} (moves : after.pc = update s.pc p next)
    (predicate : after.predicate = s.predicate)
    (others : ∀ q, q ≠ p → after.state q = s.state q ∧ after.chan q = s.chan q)
    (lk : Mutex after.lk (update s.pc p next) Pc.HoldsLk)
    (ptable : Mutex after.ptable (update s.pc p next) Pc.HoldsPtable)
    (sleeping : after.state p = .sleeping → next = .sched ∨ next = .away)
    (chan : next = .setState ∨ next = .sched ∨ next = .away → after.chan p = true)
    (refused : next.Refused → s.predicate = false)
    (asleep : s.predicate = true →
      next.Falling ∨ next = .away ∧ after.state p = .sleeping → s.Asleep p)
    (owes : ∀ q, s.Owes p q → after.Owes p q) : Inv after := by
  have pcSelf : after.pc p = next := by rw [moves, update_self]
  have pcOther : ∀ q, q ≠ p → after.pc q = s.pc q := by
    intro q other
    rw [moves, update_of_ne other]
  refine ⟨moves ▸ lk, moves ▸ ptable, ?_, ?_, ?_, ?_⟩
  · intro q
    by_cases here : q = p
    · subst here
      rw [pcSelf]
      exact sleeping
    · rw [pcOther q here, (others q here).1]
      exact inv.sleeping q
  · intro q
    by_cases here : q = p
    · subst here
      rw [pcSelf]
      exact chan
    · rw [pcOther q here, (others q here).2]
      exact inv.chan q
  · intro q
    rw [predicate]
    by_cases here : q = p
    · subst here
      rw [pcSelf]
      exact refused
    · rw [pcOther q here]
      exact inv.refused q
  · intro isTrue q sleeps
    rw [predicate] at isTrue
    have before : s.Asleep q := by
      unfold State.Asleep at sleeps
      by_cases here : q = p
      · subst here
        rw [pcSelf] at sleeps
        exact asleep isTrue sleeps
      · rw [pcOther q here, (others q here).1] at sleeps
        exact sleeps
    obtain ⟨signaller, due⟩ := inv.owed isTrue q before
    refine ⟨signaller, ?_⟩
    by_cases here : signaller = p
    · subst here
      exact owes q due
    · unfold State.Owes at due ⊢
      rw [pcOther signaller here]
      exact due

theorem Inv.walk (inv : Inv s) {lk ptable : Option (Fin n)} {here : Pc n} (pc : s.pc p = here)
    (awake : here ≠ .sched ∧ here ≠ .away)
    (lkOwner : Mutex lk (update s.pc p next) Pc.HoldsLk)
    (ptableOwner : Mutex ptable (update s.pc p next) Pc.HoldsPtable)
    (walking : ¬next.Refused ∧ ¬next.Falling ∧ next ≠ .away)
    (owes : ∀ q, s.Owes p q → State.Owes (s.goto p next) p q) :
    Inv ({ s with lk := lk, ptable := ptable }.goto p next) := by
  obtain ⟨notRefused, notFalling, notAway⟩ := walking
  refine inv.move rfl rfl (fun _ _ => ⟨rfl, rfl⟩) lkOwner ptableOwner ?_ ?_
    (fun refused => absurd refused notRefused) ?_ owes
  · intro sleeping
    rcases inv.sleeping p sleeping with place | place
    · exact absurd (pc.symm.trans place) awake.1
    · exact absurd (pc.symm.trans place) awake.2
  · rintro (rfl | rfl | rfl)
    · exact absurd trivial notFalling
    · exact absurd trivial notFalling
    · exact absurd rfl notAway
  · rintro - (falling | ⟨away, -⟩)
    · exact absurd falling notFalling
    · exact absurd away notAway

theorem owes_of_idle {after : State n} (pc : ¬(s.pc p).Signalling) (q : Fin n)
    (due : s.Owes p q) : after.Owes p q := by
  unfold State.Owes at due
  unfold Pc.Signalling at pc
  split at due <;> simp_all

theorem acquireLk_eq_some {mid : State n} (acquired : s.acquireLk p = some mid) :
    s.lk = none ∧ mid = { s with lk := some p } := by
  unfold acquireLk at acquired
  split at acquired
  next free =>
    exact ⟨free, (Option.some.inj acquired).symm⟩
  · cases acquired

theorem acquirePtable_eq_some {mid : State n} (acquired : s.acquirePtable p = some mid) :
    s.ptable = none ∧ mid = { s with ptable := some p } := by
  unfold acquirePtable at acquired
  split at acquired
  next free =>
    exact ⟨free, (Option.some.inj acquired).symm⟩
  · cases acquired

theorem Inv.acquireLk (inv : Inv s) {here : Pc n} {after : State n} (pc : s.pc p = here)
    (outside : here = .out ∨ here = .relock) (target : next = .test ∨ next = .change)
    (stepped : (s.acquireLk p).map (·.goto p next) = some after) : Inv after := by
  obtain ⟨mid, acquired, rfl⟩ := Option.map_eq_some_iff.mp stepped
  obtain ⟨free, rfl⟩ := acquireLk_eq_some acquired
  have unowned : Mutex none s.pc Pc.HoldsLk := free ▸ inv.lk
  have holds : next.HoldsLk := by rcases target with rfl | rfl <;> trivial
  have noTable : next.HoldsPtable ↔ (s.pc p).HoldsPtable := by
    rw [pc]
    rcases target with rfl | rfl <;> rcases outside with rfl | rfl <;> rfl
  have idle : ¬(s.pc p).Signalling := by
    rw [pc]
    rcases outside with rfl | rfl <;> exact id
  refine inv.walk pc ?_ (unowned.acquire holds) (inv.ptable.keep noTable) ?_ (owes_of_idle idle)
  · rcases outside with rfl | rfl <;> simp
  · rcases target with rfl | rfl <;> exact ⟨id, id, nofun⟩

theorem Inv.startWakeup (inv : Inv s) {here : Pc n} {locked : Bool} {after : State n}
    (pc : s.pc p = here)
    (place : here = .changed ∧ locked = true ∨ here = .released ∧ locked = false)
    (stepped : (s.acquirePtable p).map (·.goto p (.waking locked (List.finRange n))) = some after) :
    Inv after := by
  obtain ⟨mid, acquired, rfl⟩ := Option.map_eq_some_iff.mp stepped
  obtain ⟨free, rfl⟩ := acquirePtable_eq_some acquired
  have unowned : Mutex none s.pc Pc.HoldsPtable := free ▸ inv.ptable
  have lkKept : (Pc.waking locked (List.finRange n)).HoldsLk ↔ (s.pc p).HoldsLk := by
    rw [pc]
    rcases place with ⟨rfl, rfl⟩ | ⟨rfl, rfl⟩ <;> simp [Pc.HoldsLk]
  refine inv.walk pc ?_ (inv.lk.keep lkKept) (unowned.acquire trivial) ⟨id, id, nofun⟩ ?_
  · rcases place with ⟨rfl, -⟩ | ⟨rfl, -⟩ <;> simp
  · intro q _
    unfold State.Owes
    rw [goto_pc_self]
    exact List.mem_finRange q

theorem Inv.consume (inv : Inv s) : Inv { s with predicate := false } where
  lk := inv.lk
  ptable := inv.ptable
  sleeping := inv.sleeping
  chan := inv.chan
  refused _ _ := rfl
  owed isTrue := nomatch isTrue

/-- A signaller makes the predicate true; from now on it owes a wakeup to all. -/
theorem Inv.change (inv : Inv s) (pc : s.pc p = .change) :
    Inv ({ s with predicate := true }.goto p .changed) := by
  have signaller : (s.pc p).HoldsLk := by
    rw [pc]
    trivial
  refine ⟨inv.lk.keep ?_, inv.ptable.keep ?_, ?_, ?_, ?_, ?_⟩
  · rw [pc]
    rfl
  · rw [pc]
    rfl
  · intro q sleeping
    have other : q ≠ p := by
      rintro rfl
      have place := inv.sleeping q sleeping
      rw [pc] at place
      rcases place with place | place <;> cases place
    rw [goto_pc_ne _ other]
    exact inv.sleeping q sleeping
  · intro q
    by_cases here : q = p
    · subst here
      rw [goto_pc_self]
      rintro (place | place | place) <;> cases place
    · rw [goto_pc_ne _ here]
      exact inv.chan q
  · intro q refused
    -- a process that has found the predicate false holds `lk`, which the signaller does
    have other : q ≠ p := by
      rintro rfl
      rw [goto_pc_self] at refused
      exact refused.elim
    rw [goto_pc_ne _ other] at refused
    have holds : (s.pc q).HoldsLk := by
      unfold Pc.Refused at refused
      split at refused
      next place =>
        rw [place]
        trivial
      next place =>
        rw [place]
        trivial
      · exact refused.elim
    exact absurd (inv.lk.exclusive holds signaller) other
  · intro _ q _
    refine ⟨p, ?_⟩
    unfold State.Owes
    rw [goto_pc_self]
    trivial

theorem sleeping_wakeSlot {slot q : Fin n} :
    (s.wakeSlot slot).state q = .sleeping ↔
      s.state q = .sleeping ∧ ¬(q = slot ∧ s.chan slot = true) := by
  unfold State.wakeSlot
  split
  next sleeps =>
    by_cases here : q = slot
    · subst here
      simp [State.setState, sleeps.2]
    · simp [State.setState, here]
  next awake =>
    by_cases here : q = slot
    · subst here
      simpa using awake
    · simp [here]

theorem wakeSlot_frame (s : State n) (slot : Fin n) :
    (s.wakeSlot slot).lk = s.lk ∧ (s.wakeSlot slot).ptable = s.ptable ∧
      (s.wakeSlot slot).predicate = s.predicate ∧ (s.wakeSlot slot).chan = s.chan ∧
      (s.wakeSlot slot).pc = s.pc := by
  unfold State.wakeSlot
  split <;> exact ⟨rfl, rfl, rfl, rfl, rfl⟩

theorem Inv.wakeSlot (inv : Inv s) {locked : Bool} {slot : Fin n} {slots : List (Fin n)}
    (pc : s.pc p = .waking locked (slot :: slots)) :
    Inv ((s.wakeSlot slot).goto p (.waking locked slots)) := by
  have waker : (s.pc p).HoldsPtable := by
    rw [pc]
    trivial
  -- nobody is between `release(lk)` and `sched` while the loop holds `ptable.lock`
  have noneFalls : ∀ q, ¬(s.pc q).Falling := by
    intro q falling
    have holds : (s.pc q).HoldsPtable := by
      revert falling
      cases s.pc q <;> simp [Pc.Falling, Pc.HoldsPtable]
    rw [inv.ptable.exclusive holds waker, pc] at falling
    exact falling.elim
  obtain ⟨lk, ptable, predicate, chan, pcs⟩ := wakeSlot_frame s slot
  have elsewhere : ∀ q, q ≠ p →
      ((s.wakeSlot slot).goto p (.waking locked slots)).pc q = s.pc q := by
    intro q other
    rw [goto_pc_ne _ other, pcs]
  refine ⟨?_, ?_, ?_, ?_, ?_, ?_⟩
  · change Mutex (s.wakeSlot slot).lk (update (s.wakeSlot slot).pc p _) _
    rw [lk, pcs]
    refine inv.lk.keep ?_
    rw [pc]
    rfl
  · change Mutex (s.wakeSlot slot).ptable (update (s.wakeSlot slot).pc p _) _
    rw [ptable, pcs]
    refine inv.ptable.keep ?_
    rw [pc]
    rfl
  · intro q sleeping
    have place := inv.sleeping q (sleeping_wakeSlot.mp sleeping).1
    have other : q ≠ p := by
      rintro rfl
      rw [pc] at place
      rcases place with place | place <;> cases place
    rw [elsewhere q other]
    exact place
  · intro q place
    change (s.wakeSlot slot).chan q = true
    rw [chan]
    have other : q ≠ p := by
      rintro rfl
      rw [goto_pc_self] at place
      rcases place with place | place | place <;> cases place
    rw [elsewhere q other] at place
    exact inv.chan q place
  · intro q refused
    change (s.wakeSlot slot).predicate = false
    rw [predicate]
    have other : q ≠ p := by
      rintro rfl
      rw [goto_pc_self] at refused
      exact refused.elim
    rw [elsewhere q other] at refused
    exact inv.refused q refused
  · intro isTrue q asleep
    change (s.wakeSlot slot).predicate = true at isTrue
    rw [predicate] at isTrue
    have other : q ≠ p := by
      rintro rfl
      unfold State.Asleep at asleep
      rw [goto_pc_self] at asleep
      rcases asleep with falling | ⟨away, -⟩
      · exact falling.elim
      · cases away
    unfold State.Asleep at asleep
    rw [elsewhere q other] at asleep
    obtain ⟨away, sleeping⟩ := asleep.resolve_left (noneFalls q)
    obtain ⟨before, stays⟩ := sleeping_wakeSlot.mp sleeping
    obtain ⟨signaller, due⟩ := inv.owed isTrue q (.inr ⟨away, before⟩)
    refine ⟨signaller, ?_⟩
    by_cases here : signaller = p
    · subst here
      unfold State.Owes at due ⊢
      rw [pc] at due
      rw [goto_pc_self]
      -- the process just visited is awake, so the one that sleeps is yet to come
      rcases List.mem_cons.mp due with visited | later
      · have onChan := inv.chan q (.inr (.inr away))
        rw [visited] at onChan
        exact absurd ⟨visited, onChan⟩ stays
      · exact later
    · unfold State.Owes at due ⊢
      rw [elsewhere signaller here]
      exact due

theorem Inv.not_sleeping (inv : Inv s) {here : Pc n} (pc : s.pc p = here)
    (awake : here ≠ .sched ∧ here ≠ .away) : s.state p ≠ .sleeping := by
  intro sleeping
  rcases inv.sleeping p sleeping with place | place
  · exact awake.1 (pc.symm.trans place)
  · exact awake.2 (pc.symm.trans place)

/-- A process goes on inside `sleep`, from the test of the predicate to the test
after its return. -/
theorem Inv.sleep (inv : Inv s) {after : State n} {here : Pc n} (pc : s.pc p = here)
    (inside : here = .entered ∨ here = .handOver ∨ here = .setChan ∨ here = .setState ∨
      here = .sched ∨ here = .away ∨ here = .tidy ∨ here = .leave)
    (stepped : step s (p, .go) = some after) : Inv after := by
  have idle : ¬(s.pc p).Signalling := by
    rw [pc]
    rcases inside with rfl | rfl | rfl | rfl | rfl | rfl | rfl | rfl <;> exact id
  have owes : ∀ q, s.Owes p q → after.Owes p q := owes_of_idle idle
  rcases inside with rfl | rfl | rfl | rfl | rfl | rfl | rfl | rfl
  all_goals simp only [step, pc] at stepped
  · -- entered: `ptable.lock` is taken while `lk` is still held
    obtain ⟨mid, acquired, rfl⟩ := Option.map_eq_some_iff.mp stepped
    obtain ⟨free, rfl⟩ := acquirePtable_eq_some acquired
    have unowned : Mutex none s.pc Pc.HoldsPtable := free ▸ inv.ptable
    refine inv.move rfl rfl (fun _ _ => ⟨rfl, rfl⟩) (inv.lk.keep (by rw [pc]; rfl))
      (unowned.acquire trivial) ?_ ?_ ?_ ?_ owes
    · intro sleeping
      exact absurd sleeping (inv.not_sleeping pc (by simp))
    · rintro (place | place | place) <;> cases place
    · intro _
      exact inv.refused p (by rw [pc]; trivial)
    · rintro - (falling | ⟨away, -⟩)
      · exact falling.elim
      · cases away
  · -- handOver: the predicate is false when `lk` is released
    cases stepped
    refine inv.move rfl rfl (fun _ _ => ⟨rfl, rfl⟩) (inv.lk.release (by rw [pc]; trivial) id)
      (inv.ptable.keep (by rw [pc]; rfl)) ?_ ?_ False.elim ?_ owes
    · intro sleeping
      exact absurd sleeping (inv.not_sleeping pc (by simp))
    · rintro (place | place | place) <;> cases place
    · intro isTrue
      have isFalse := inv.refused p (by rw [pc]; trivial)
      rw [isFalse] at isTrue
      cases isTrue
  · -- setChan
    cases stepped
    refine inv.move rfl rfl ?_ (inv.lk.keep (by rw [pc]; rfl)) (inv.ptable.keep (by rw [pc]; rfl))
      ?_ ?_ False.elim ?_ owes
    · intro q other
      exact ⟨rfl, update_of_ne other _ _⟩
    · intro sleeping
      exact absurd sleeping (inv.not_sleeping pc (by simp))
    · intro _
      exact update_self _ _ _
    · intro _ _
      left
      rw [pc]
      trivial
  · -- setState
    cases stepped
    refine inv.move rfl rfl ?_ (inv.lk.keep (by rw [pc]; rfl)) (inv.ptable.keep (by rw [pc]; rfl))
      ?_ ?_ False.elim ?_ owes
    · intro q other
      exact ⟨update_of_ne other _ _, rfl⟩
    · intro _
      exact .inl rfl
    · intro _
      exact inv.chan p (.inl pc)
    · intro _ _
      left
      rw [pc]
      trivial
  · -- sched
    cases stepped
    refine inv.move rfl rfl (fun _ _ => ⟨rfl, rfl⟩) (inv.lk.keep (by rw [pc]; rfl))
      (inv.ptable.release (by rw [pc]; trivial) id) ?_ ?_ False.elim ?_ owes
    · intro _
      exact .inr rfl
    · intro _
      exact inv.chan p (.inr (.inl pc))
    · intro _ _
      left
      rw [pc]
      trivial
  · -- away: a wakeup has made the process RUNNABLE
    split at stepped
    · obtain ⟨mid, acquired, rfl⟩ := Option.map_eq_some_iff.mp stepped
      obtain ⟨free, rfl⟩ := acquirePtable_eq_some acquired
      have unowned : Mutex none s.pc Pc.HoldsPtable := free ▸ inv.ptable
      refine inv.move rfl rfl ?_ (inv.lk.keep (by rw [pc]; rfl)) (unowned.acquire trivial)
        ?_ ?_ False.elim ?_ owes
      · intro q other
        exact ⟨update_of_ne other _ _, rfl⟩
      · intro sleeping
        have running : update s.state p ProcState.running p = .sleeping := sleeping
        rw [update_self] at running
        cases running
      · rintro (place | place | place) <;> cases place
      · rintro - (falling | ⟨away, -⟩)
        · exact falling.elim
        · cases away
    · cases stepped
  · -- tidy
    cases stepped
    refine inv.move rfl rfl ?_ (inv.lk.keep (by rw [pc]; rfl)) (inv.ptable.keep (by rw [pc]; rfl))
      ?_ ?_ False.elim ?_ owes
    · intro q other
      exact ⟨rfl, update_of_ne other _ _⟩
    · intro sleeping
      exact absurd sleeping (inv.not_sleeping pc (by simp))
    · rintro (place | place | place) <;> cases place
    · rintro - (falling | ⟨away, -⟩)
      · exact falling.elim
      · cases away
  · -- leave
    cases stepped
    exact inv.walk pc (by simp) (inv.lk.keep (by rw [pc]; rfl))
      (inv.ptable.release (by rw [pc]; trivial) id) ⟨id, id, nofun⟩ owes

theorem Inv.go (inv : Inv s) {after : State n} (stepped : step s (p, .go) = some after) :
    Inv after := by
  cases pc : s.pc p with
  | out => simp [step, pc] at stepped
  | entered | handOver | setChan | setState | sched | away | tidy | leave =>
    exact inv.sleep pc (by simp) stepped
  | test =>
    simp only [step, pc] at stepped
    cases stepped
    have idle : ¬(s.pc p).Signalling := by rw [pc]; exact id
    split
    · exact inv.walk pc (by simp) (inv.lk.keep (by rw [pc]; rfl))
        (inv.ptable.keep (by rw [pc]; rfl)) ⟨id, id, nofun⟩ (owes_of_idle idle)
    next isFalse =>
      refine inv.move rfl rfl (fun _ _ => ⟨rfl, rfl⟩) (inv.lk.keep (by rw [pc]; rfl))
        (inv.ptable.keep (by rw [pc]; rfl)) ?_ ?_ ?_ ?_ (owes_of_idle idle)
      · intro sleeping
        exact absurd sleeping (inv.not_sleeping pc (by simp))
      · rintro (place | place | place) <;> cases place
      · intro _
        exact Bool.eq_false_iff.mpr isFalse
      · intro isTrue
        exact absurd isTrue isFalse
  | found =>
    simp only [step, pc] at stepped
    cases stepped
    exact inv.walk pc (by simp) (inv.lk.release (by rw [pc]; trivial) id)
      (inv.ptable.keep (by rw [pc]; rfl)) ⟨id, id, nofun⟩ (owes_of_idle (by rw [pc]; exact id))
  | relock =>
    simp only [step, pc] at stepped
    exact inv.acquireLk pc (.inr rfl) (.inl rfl) stepped
  | change =>
    simp only [step, pc] at stepped
    cases stepped
    exact inv.change pc
  | changed =>
    simp only [step, pc] at stepped
    exact inv.startWakeup pc (.inl ⟨rfl, rfl⟩) stepped
  | released =>
    simp only [step, pc] at stepped
    exact inv.startWakeup pc (.inr ⟨rfl, rfl⟩) stepped
  | waking locked slots =>
    cases slots with
    | nil =>
      simp only [step, pc] at stepped
      cases stepped
      -- a wakeup that has visited every slot is due to nobody
      have owes : ∀ {after : State n} (q : Fin n), s.Owes p q → after.Owes p q := by
        intro after q due
        unfold State.Owes at due
        rw [pc] at due
        cases due
      cases locked with
      | false =>
        exact inv.walk pc (by simp) (inv.lk.keep (by rw [pc]; simp [Pc.HoldsLk]))
          (inv.ptable.release (by rw [pc]; trivial) id) ⟨id, id, nofun⟩ owes
      | true =>
        exact inv.walk pc (by simp) (inv.lk.keep (by rw [pc]; simp [Pc.HoldsLk]))
          (inv.ptable.release (by rw [pc]; trivial) id) ⟨id, id, nofun⟩ owes
    | cons slot slots =>
      simp only [step, pc] at stepped
      cases stepped
      exact inv.wakeSlot pc
  | woke =>
    simp only [step, pc] at stepped
    cases stepped
    exact inv.walk pc (by simp) (inv.lk.release (by rw [pc]; trivial) id)
      (inv.ptable.keep (by rw [pc]; rfl)) ⟨id, id, nofun⟩ (owes_of_idle (by rw [pc]; exact id))

theorem Inv.step (inv : Inv s) {action : Action n} {after : State n}
    (stepped : step s action = some after) : Inv after := by
  obtain ⟨p, choice⟩ := action
  cases choice with
  | go => exact inv.go stepped
  | wait =>
    simp only [Sleep.step] at stepped
    split at stepped
    next pc =>
      exact inv.acquireLk pc (.inl rfl) (.inl rfl) stepped
    · cases stepped
  | signal =>
    simp only [Sleep.step] at stepped
    split at stepped
    next pc =>
      exact inv.acquireLk pc (.inl rfl) (.inr rfl) stepped
    · cases stepped
  | consume =>
    simp only [Sleep.step] at stepped
    split at stepped
    · cases stepped
      exact inv.consume
    · cases stepped
  | releaseFirst =>
    simp only [Sleep.step] at stepped
    split at stepped
    next pc =>
      cases stepped
      refine inv.walk pc (by simp) (inv.lk.release (by rw [pc]; trivial) id)
        (inv.ptable.keep (by rw [pc]; rfl)) ⟨id, id, nofun⟩ ?_
      intro q _
      unfold State.Owes
      rw [goto_pc_self]
      trivial
    · cases stepped

end Steps

def State.Lost (s : State n) : Prop :=
  s.predicate = true ∧ (∀ q, ¬(s.pc q).Signalling) ∧ ∃ p, s.state p = .sleeping ∧ s.chan p = true

/-- For any number of processes and rounds, no wakeup is lost. -/
theorem no_lost_wakeup (n : Nat) (predicate : Bool) (s : State n)
    (reachable : Transition.Reachable step (fun _ _ => True) (initial n predicate) s) :
    ¬s.Lost := by
  have inv : Inv s := reachable.invariant Inv (initial_inv predicate)
    fun _ _ _ inv _ stepped => inv.step stepped
  rintro ⟨isTrue, noSignaller, p, sleeping, -⟩
  have asleep : s.Asleep p := by
    rcases inv.sleeping p sleeping with place | place
    · left
      rw [place]
      trivial
    · exact .inr ⟨place, sleeping⟩
  obtain ⟨q, due⟩ := inv.owed isTrue p asleep
  refine noSignaller q ?_
  unfold State.Owes at due
  unfold Pc.Signalling
  split at due <;> simp_all

/-- A process sleeps, and is woken by one that calls `wakeup` before `release`. -/
theorem no_lost_wakeup_round : ∃ s,
    Transition.Reachable step (fun _ _ => True) (initial 2 false) s ∧
      (s.predicate = true ∧ s.pc 0 = .away ∧ s.state 0 = .runnable) ∧ ¬s.Lost := by
  have ran : ∃ s, Transition.Reachable step (fun _ _ => True) (initial 2 false) s ∧
      (s.predicate = true ∧ s.pc 0 = .away ∧ s.state 0 = .runnable) :=
    Transition.Reachable.exists_of_run (fun _ _ => true) (fun _ _ _ => trivial) _
      [(0, .wait), (0, .go), (0, .go), (0, .go), (0, .go), (0, .go), (0, .go),
        (1, .signal), (1, .go), (1, .go), (1, .go), (1, .go), (1, .go)] (by decide)
  obtain ⟨s, reachable, ends⟩ := ran
  exact ⟨s, reachable, ends, no_lost_wakeup 2 false s reachable⟩

end Sleep

end Xv6
