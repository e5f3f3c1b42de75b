import Xv6.Ide.Model
import Xv6.Lib.Transition

/-!
# The request queue

The buffers linked through `qnext` are the requests that have been issued and
not completed, oldest first; each belongs to a process that waits in `iderw`.
The drive works on the first one and on nothing else.
-/

open Function (update update_eq_self update_of_ne update_self)

namespace Xv6.Ide

open Bio

variable {Pid : Type}

def commandOf (buf : Buf) : Command :=
  if buf.dirty then .write buf.blockno buf.data else .read buf.blockno

/-- The state of a buffer for which `iderw` has something to do. -/
def Todo (buf : Buf) : Prop := ¬(buf.valid = true ∧ buf.dirty = false)

/-- The drive works for the first buffer of the queue. -/
def Serves (s : System Pid) : List BufId → Prop
  | [] => s.status = .idle
  | b :: _ => s.status = .running (commandOf (s.buf b)) ∨
      (s.buf b).dirty = true ∧ s.status = .done none ∧ s.medium (s.buf b).blockno = (s.buf b).data ∨
      (s.buf b).dirty = false ∧ s.status = .done (some (s.medium (s.buf b).blockno))

structure Ordered (s : System Pid) (queue : List BufId) : Prop where
  chain : Chain some s.qnext none s.idequeue queue
  nodup : queue.Nodup
  serves : Serves s queue
  todo : ∀ b ∈ queue, Todo (s.buf b)
  waits : ∀ b ∈ queue, ∃ p, s.holder b = some p ∧ (s.pc p = .asleep b ∨ s.pc p = .woken b)
  /-- a buffer in use is one of device 1 -/
  held : ∀ b p, s.holder b = some p →
    (s.buf b).busy = true ∧ (s.buf b).dev = 1 ∧ (s.buf b).blockno < FSSIZE
  entered : ∀ p b, s.pc p = .entered b → s.holder b = some p ∧ b ∉ queue ∧ Todo (s.buf b)
  inside : ∀ p b, s.pc p = .asleep b ∨ s.pc p = .woken b →
    s.holder b = some p ∧ (b ∈ queue ∨ (s.buf b).valid = true ∧ (s.buf b).dirty = false)
  history : ∃ finished, s.issued = finished ++ queue ∧ s.started = finished ++ queue.take 1

/-! ## The links -/

section Links

variable {qnext : BufId → Option BufId} {queue rest : List BufId} {b head last : BufId}

theorem lastOf_eq {front : List BufId} (chain : Chain some qnext none (some head) (front ++ [last]))
    {fuel : Nat} (enough : front.length ≤ fuel) : lastOf qnext fuel head = last := by
  induction front generalizing head fuel with
  | nil =>
    obtain ⟨first, ends⟩ := chain
    rw [Option.some.inj first]
    cases fuel with
    | zero => rfl
    | succ fuel => rw [lastOf, show qnext last = none from ends]
  | cons a front ih =>
    obtain ⟨first, follows⟩ := chain
    rw [List.length_cons] at enough
    obtain ⟨fuel, rfl⟩ : ∃ less, fuel = less + 1 := ⟨fuel - 1, by omega⟩
    rw [Option.some.inj first]
    cases next : qnext a with
    | none =>
      rw [next] at follows
      cases front with
      | nil => exact absurd follows.1 (Option.some_ne_none _).symm
      | cons c front => exact absurd follows.1 (Option.some_ne_none _).symm
    | some c =>
      rw [next] at follows
      rw [lastOf, next]
      exact ih follows (by omega)

variable {s : System Pid}

theorem chain_append (chain : Chain some s.qnext none s.idequeue queue) (nodup : queue.Nodup)
    (new : b ∉ queue) : Chain some (s.append b).qnext none (s.append b).idequeue
    (queue ++ [b]) := by
  have cut : Chain some (update s.qnext b none) none s.idequeue queue := by
    refine chain.frame fun c among => update_of_ne ?_ _ _
    rintro rfl
    exact new among
  have ends : update s.qnext b none b = none := update_self b none s.qnext
  rcases List.eq_nil_or_concat' queue with rfl | ⟨front, last, rfl⟩
  · have empty : s.idequeue = none := chain
    unfold System.append
    rw [empty]
    exact ⟨rfl, ends⟩
  · obtain ⟨head, first⟩ : ∃ head, s.idequeue = some head := by
      cases front with
      | nil => exact ⟨_, chain.1⟩
      | cons c front => exact ⟨_, chain.1⟩
    have short : front.length ≤ NBUF := by
      have bound := nodup.length_le_card
      rw [Fintype.card_fin, List.length_append] at bound
      omega
    rw [first] at cut
    have found := lastOf_eq cut short
    have longer := cut.snoc nodup new ends
    unfold System.append
    rw [first]
    dsimp only
    rw [found, List.append_assoc, List.singleton_append]
    exact longer

end Links

/-! ## Steps outside the queue -/

section Steps

variable {s : System Pid} {queue : List BufId} {p : Pid} {b : BufId}

theorem Ordered.not_queued (ordered : Ordered s queue)
    (idle : ∀ q, s.holder b = some q → s.pc q = .out) : b ∉ queue := by
  intro among
  obtain ⟨q, holds, waiting⟩ := ordered.waits b among
  rw [idle q holds] at waiting
  rcases waiting with absurdity | absurdity <;> cases absurdity

theorem Ordered.not_inside (ordered : Ordered s queue)
    (idle : ∀ q, s.holder b = some q → s.pc q = .out)
    {q : Pid} {c : BufId} (inside : s.pc q = .entered c ∨ s.pc q = .asleep c ∨ s.pc q = .woken c) :
    c ≠ b := by
  rintro rfl
  have holds : s.holder c = some q := by
    rcases inside with early | late
    · exact (ordered.entered q c early).1
    · exact (ordered.inside q c late).1
  rw [idle q holds] at inside
  rcases inside with absurdity | absurdity | absurdity <;> cases absurdity

theorem Ordered.rebuf (ordered : Ordered s queue) (idle : ∀ q, s.holder b = some q → s.pc q = .out)
    (buf : Buf) (holder : Option Pid)
    (fit : ∀ q, holder = some q → buf.busy = true ∧ buf.dev = 1 ∧ buf.blockno < FSSIZE) :
    Ordered { s with
      holder := update s.holder b holder, buf := update s.buf b buf } queue := by
  have apart : ∀ c ∈ queue, c ≠ b := by
    rintro c among rfl
    exact ordered.not_queued idle among
  refine ⟨ordered.chain, ordered.nodup, ?_, ?_, ?_, ?_, ?_, ?_, ordered.history⟩
  · have serves := ordered.serves
    cases queue with
    | nil => exact serves
    | cons c rest =>
      have other := apart c (by simp)
      unfold Serves at serves ⊢
      dsimp only
      rw [update_of_ne other]
      exact serves
  · intro c among
    dsimp only
    rw [update_of_ne (apart c among)]
    exact ordered.todo c among
  · intro c among
    dsimp only
    rw [update_of_ne (apart c among)]
    exact ordered.waits c among
  · intro c q
    dsimp only
    by_cases here : c = b
    · subst here
      rw [update_self, update_self]
      exact fit q
    · rw [update_of_ne here, update_of_ne here]
      exact ordered.held c q
  · intro q c inside
    dsimp only
    have other := ordered.not_inside idle (.inl inside)
    rw [update_of_ne other, update_of_ne other]
    exact ordered.entered q c inside
  · intro q c inside
    dsimp only
    have other := ordered.not_inside idle (.inr inside)
    rw [update_of_ne other, update_of_ne other]
    exact ordered.inside q c inside

variable [DecidableEq Pid]

theorem Ordered.setPc (ordered : Ordered s queue) {pc : Pc}
    (entered : ∀ b, pc = .entered b → s.holder b = some p ∧ b ∉ queue ∧ Todo (s.buf b))
    (inside : ∀ b, pc = .asleep b ∨ pc = .woken b →
      s.holder b = some p ∧ (b ∈ queue ∨ (s.buf b).valid = true ∧ (s.buf b).dirty = false))
    (waits : ∀ b ∈ queue, s.pc p = .asleep b ∨ s.pc p = .woken b → pc = .asleep b ∨ pc = .woken b) :
    Ordered (s.setPc p pc) queue := by
  have self := s.setPc_pc_self p pc
  have others : ∀ q, q ≠ p → (s.setPc p pc).pc q = s.pc q := fun q => s.setPc_pc_ne pc
  refine ⟨ordered.chain, ordered.nodup, ?_, ordered.todo, ?_, ordered.held, ?_, ?_, ordered.history⟩
  · cases queue <;> exact ordered.serves
  · intro b among
    obtain ⟨q, holds, waiting⟩ := ordered.waits b among
    refine ⟨q, holds, ?_⟩
    by_cases here : q = p
    · subst here
      rw [self]
      exact waits b among waiting
    · rw [others q here]
      exact waiting
  · intro q b
    by_cases here : q = p
    · subst here
      rw [self]
      exact entered b
    · rw [others q here]
      exact ordered.entered q b
  · intro q b
    by_cases here : q = p
    · subst here
      rw [self]
      exact inside b
    · rw [others q here]
      exact ordered.inside q b

theorem Ordered.await (ordered : Ordered s queue) (holds : s.holder b = some p)
    (started : b ∈ queue ∨ (s.buf b).valid = true ∧ (s.buf b).dirty = false)
    (here : ∀ c ∈ queue, s.pc p = .asleep c ∨ s.pc p = .woken c → c = b) :
    Ordered (s.await p b) queue := by
  unfold System.await
  by_cases finished : (s.buf b).valid = true ∧ (s.buf b).dirty = false
  · rw [if_pos (by rw [finished.1, finished.2]; rfl)]
    refine ordered.setPc (fun c => nofun)
      (fun c inside => by rcases inside with x | x <;> cases x) ?_
    intro c among waiting
    rw [here c among waiting] at among
    exact absurd finished (ordered.todo b among)
  · rw [if_neg (by simpa using finished)]
    refine ordered.setPc (fun c => nofun) ?_ ?_
    · rintro c (same | absurdity)
      · cases same
        exact ⟨holds, started⟩
      · cases absurdity
    · intro c among waiting
      exact .inl (by rw [here c among waiting])

/-! ## Steps of the queue -/

omit [DecidableEq Pid] in
theorem append_eq (b : BufId) : s.append b = { s with
    qnext := (s.append b).qnext, idequeue := (s.append b).idequeue,
    issued := s.issued ++ [b] } := by
  unfold System.append
  split <;> rfl

omit [DecidableEq Pid] in
theorem idestart_eq (idle : s.status = .idle) (inside : (s.buf b).blockno < FSSIZE) :
    s.idestart b = some { s with
      status := .running (commandOf (s.buf b)), started := s.started ++ [b] } := by
  unfold System.idestart
  rw [if_neg (Nat.not_le.mpr inside), idle]
  rfl

/-- The section of `iderw` before its first `sleep`: the buffer is the last of
the queue, and the drive has been started for it if it is the first. -/
theorem Ordered.enqueue_eq (ordered : Ordered s queue) (here : s.pc p = .entered b) :
    s.enqueue p b = some { s with
      qnext := (s.append b).qnext
      idequeue := (s.append b).idequeue
      pc := update s.pc p (.asleep b)
      status := if queue = [] then .running (commandOf (s.buf b)) else s.status
      issued := s.issued ++ [b]
      started := if queue = [] then s.started ++ [b] else s.started } := by
  obtain ⟨holds, new, todo⟩ := ordered.entered p b here
  have inside := (ordered.held b p holds).2.2
  have waits : ((s.buf b).valid && !(s.buf b).dirty) = true ↔ False := by
    unfold Todo at todo
    simpa using todo
  have same := append_eq (s := s) b
  unfold System.enqueue
  cases queue with
  | nil =>
    have empty : s.idequeue = none := ordered.chain
    have idle : s.status = .idle := ordered.serves
    have first : (s.append b).idequeue = some b := by
      unfold System.append
      rw [empty]
    rw [if_pos first, same, idestart_eq (by exact idle) (by exact inside)]
    simp only [Option.map_some, System.await, System.setPc, waits, if_false, if_true]
  | cons c rest =>
    have first : s.idequeue = some c := ordered.chain.1
    have kept : (s.append b).idequeue = some c := by
      unfold System.append
      rw [first]
    have other : c ≠ b := by
      rintro rfl
      exact new (by simp)
    rw [if_neg (by rw [kept]; exact fun clash => other (Option.some.inj clash)), same]
    simp only [System.await, System.setPc, waits, if_false, reduceCtorEq]

theorem Ordered.enqueue (ordered : Ordered s queue) (here : s.pc p = .entered b)
    {after : System Pid} (stepped : s.enqueue p b = some after) : Ordered after (queue ++ [b]) := by
  obtain ⟨holds, new, todo⟩ := ordered.entered p b here
  have chain := chain_append ordered.chain ordered.nodup new
  have nodup : (queue ++ [b]).Nodup := by
    rw [List.nodup_append]
    refine ⟨ordered.nodup, List.nodup_singleton b, ?_⟩
    rintro c among d single rfl
    exact new (List.mem_singleton.mp single ▸ among)
  rw [ordered.enqueue_eq here] at stepped
  cases stepped
  refine ⟨chain, nodup, ?_, ?_, ?_, ordered.held, ?_, ?_, ?_⟩
  · have serves := ordered.serves
    cases queue with
    | nil => exact .inl rfl
    | cons c rest =>
      unfold Serves at serves ⊢
      simpa using serves
  · intro c among
    rcases List.mem_append.mp among with old | single
    · exact ordered.todo c old
    · rw [List.mem_singleton.mp single]
      exact todo
  · intro c among
    dsimp only
    rcases List.mem_append.mp among with old | single
    · obtain ⟨q, holdsToo, waiting⟩ := ordered.waits c old
      refine ⟨q, holdsToo, ?_⟩
      rw [update_of_ne]
      · exact waiting
      · rintro rfl
        rw [here] at waiting
        rcases waiting with absurdity | absurdity <;> cases absurdity
    · rw [List.mem_singleton.mp single]
      exact ⟨p, holds, .inl (update_self _ _ _)⟩
  · intro q c
    dsimp only
    by_cases self : q = p
    · subst self
      rw [update_self]
      exact nofun
    · rw [update_of_ne self]
      intro inside
      obtain ⟨holdsToo, apart, todoToo⟩ := ordered.entered q c inside
      refine ⟨holdsToo, fun among => ?_, todoToo⟩
      rcases List.mem_append.mp among with old | single
      · exact apart old
      · rw [List.mem_singleton.mp single, holds] at holdsToo
        exact self (Option.some.inj holdsToo).symm
  · intro q c
    dsimp only
    by_cases self : q = p
    · subst self
      rw [update_self]
      rintro (same | absurdity)
      · cases same
        exact ⟨holds, .inl (by simp)⟩
      · cases absurdity
    · rw [update_of_ne self]
      intro inside
      obtain ⟨holdsToo, among | done⟩ := ordered.inside q c inside
      · exact ⟨holdsToo, .inl (List.mem_append_left _ among)⟩
      · exact ⟨holdsToo, .inr done⟩
  · obtain ⟨finished, issued, started⟩ := ordered.history
    refine ⟨finished, ?_, ?_⟩
    · dsimp only
      rw [issued, List.append_assoc]
    · dsimp only
      cases queue with
      | nil => simpa using started
      | cons c rest => simpa using started

omit [DecidableEq Pid] in
theorem Ordered.running (ordered : Ordered s queue) {command : Command}
    (busy : s.status = .running command) :
    ∃ b rest, queue = b :: rest ∧ command = commandOf (s.buf b) := by
  have serves := ordered.serves
  cases queue with
  | nil =>
    have idle : s.status = .idle := serves
    rw [idle] at busy
    cases busy
  | cons b rest =>
    refine ⟨b, rest, rfl, ?_⟩
    rcases serves with run | ⟨-, done, -⟩ | ⟨-, done⟩
    · rw [run] at busy
      injection busy with same
      exact same.symm
    · rw [done] at busy
      cases busy
    · rw [done] at busy
      cases busy

omit [DecidableEq Pid] in
theorem Ordered.finished (ordered : Ordered s queue) {data : Option Block}
    (done : s.status = .done data) :
    ∃ b rest, queue = b :: rest ∧
      ((s.buf b).dirty = true ∧ data = none ∧ s.medium (s.buf b).blockno = (s.buf b).data ∨
        (s.buf b).dirty = false ∧ data = some (s.medium (s.buf b).blockno)) := by
  have serves := ordered.serves
  cases queue with
  | nil =>
    have idle : s.status = .idle := serves
    rw [idle] at done
    cases done
  | cons b rest =>
    refine ⟨b, rest, rfl, ?_⟩
    rcases serves with run | ⟨dirty, written, same⟩ | ⟨clean, read⟩
    · rw [run] at done
      cases done
    · rw [written] at done
      cases done
      exact .inl ⟨dirty, rfl, same⟩
    · rw [read] at done
      cases done
      exact .inr ⟨clean, rfl⟩

omit [DecidableEq Pid] in
theorem Ordered.complete (ordered : Ordered s queue) {command : Command}
    (busy : s.status = .running command) : Ordered (s.complete command) queue := by
  obtain ⟨b, rest, rfl, rfl⟩ := ordered.running busy
  cases dirty : (s.buf b).dirty with
  | true =>
    have eq : s.complete (commandOf (s.buf b)) = { s with
        status := .done none
        medium := update s.medium (s.buf b).blockno (s.buf b).data } := by
      rw [commandOf, dirty]
      rfl
    rw [eq]
    exact { ordered with
      serves := .inr (.inl ⟨dirty, rfl, update_self _ _ _⟩) }
  | false =>
    have eq : s.complete (commandOf (s.buf b)) = { s with
        status := .done (some (s.medium (s.buf b).blockno)) } := by
      rw [commandOf, dirty]
      rfl
    rw [eq]
    exact { ordered with serves := .inr (.inr ⟨dirty, rfl⟩) }

omit [DecidableEq Pid] in
theorem Ordered.ideintr_eq {rest : List BufId} (ordered : Ordered s (b :: rest))
    (data : Option Block) :
    s.ideintr data = some { s with
      idequeue := s.qnext b
      buf := update s.buf b (s.received b data)
      pc := fun p => (s.pc p).wakeup b
      status := rest.head?.elim .idle fun c => .running (commandOf (s.buf c))
      started := s.started ++ rest.take 1 } := by
  have first : s.idequeue = some b := ordered.chain.1
  have follows := ordered.chain.2
  unfold System.ideintr
  rw [first]
  dsimp only
  cases rest with
  | nil =>
    have ends : s.qnext b = none := follows
    rw [ends, List.take_nil, List.append_nil]
    rfl
  | cons c rest =>
    have next : s.qnext b = some c := follows.1
    have other : c ≠ b := by
      rintro rfl
      exact (List.nodup_cons.mp ordered.nodup).1 (by simp)
    have unchanged : update s.buf b (s.received b data) c = s.buf c :=
      update_of_ne other _ _
    obtain ⟨q, holds, -⟩ := ordered.waits c (by simp)
    have inside := (ordered.held c q holds).2.2
    rw [next]
    dsimp only
    rw [idestart_eq rfl (by dsimp only; rw [unchanged]; exact inside)]
    dsimp only
    rw [unchanged]
    rfl

omit [DecidableEq Pid] in
theorem received_done (b : BufId) (data : Option Block) :
    (s.received b data).valid = true ∧ (s.received b data).dirty = false := ⟨rfl, rfl⟩

theorem wakeup_inside {pc : Pc} {c : BufId} :
    pc.wakeup b = .asleep c ∨ pc.wakeup b = .woken c ↔ pc = .asleep c ∨ pc = .woken c := by
  cases pc with
  | asleep chan =>
    rw [Pc.wakeup]
    split
    · simp
    · simp
  | out => simp [Pc.wakeup]
  | entered chan => simp [Pc.wakeup]
  | woken chan => simp [Pc.wakeup]

theorem wakeup_entered {pc : Pc} {c : BufId} : pc.wakeup b = .entered c ↔ pc = .entered c := by
  cases pc with
  | asleep chan =>
    rw [Pc.wakeup]
    split
    · simp
    · simp
  | out => simp [Pc.wakeup]
  | entered chan => simp [Pc.wakeup]
  | woken chan => simp [Pc.wakeup]

omit [DecidableEq Pid] in
theorem Ordered.ideintr {rest : List BufId} (ordered : Ordered s (b :: rest)) {data : Option Block}
    {after : System Pid} (stepped : s.ideintr data = some after) : Ordered after rest := by
  rw [ordered.ideintr_eq data] at stepped
  cases stepped
  obtain ⟨new, nodup⟩ := List.nodup_cons.mp ordered.nodup
  have other : ∀ c ∈ rest, c ≠ b := by
    rintro c among rfl
    exact new among
  refine ⟨ordered.chain.2, nodup, ?_, ?_, ?_, ?_, ?_, ?_, ?_⟩
  · cases rest with
    | nil => exact rfl
    | cons c rest =>
      refine .inl ?_
      dsimp only
      rw [update_of_ne (other c (by simp))]
      rfl
  · intro c among
    dsimp only
    rw [update_of_ne (other c among)]
    exact ordered.todo c (List.mem_cons_of_mem _ among)
  · intro c among
    obtain ⟨q, holds, waiting⟩ := ordered.waits c (List.mem_cons_of_mem _ among)
    exact ⟨q, holds, wakeup_inside.mpr waiting⟩
  · intro c q holds
    dsimp only
    by_cases here : c = b
    · subst here
      rw [update_self]
      exact ordered.held c q holds
    · rw [update_of_ne here]
      exact ordered.held c q holds
  · intro q c inside
    obtain ⟨holds, apart, todo⟩ := ordered.entered q c (wakeup_entered.mp inside)
    refine ⟨holds, fun among => apart (List.mem_cons_of_mem _ among), ?_⟩
    dsimp only
    rw [update_of_ne]
    · exact todo
    · rintro rfl
      exact apart (by simp)
  · intro q c inside
    obtain ⟨holds, known⟩ := ordered.inside q c (wakeup_inside.mp inside)
    refine ⟨holds, ?_⟩
    dsimp only
    by_cases here : c = b
    · subst here
      rw [update_self]
      exact .inr (received_done c data)
    · rw [update_of_ne here]
      rcases known with among | done
      · exact .inl ((List.mem_cons.mp among).resolve_left here)
      · exact .inr done
  · obtain ⟨finished, issued, started⟩ := ordered.history
    refine ⟨finished ++ [b], ?_, ?_⟩
    · rw [List.append_assoc, List.singleton_append]
      exact issued
    · dsimp only
      rw [started]
      simp

/-! ## Runs -/

omit [DecidableEq Pid] in
theorem Uses.idle (uses : s.Uses p b) : ∀ q, s.holder b = some q → s.pc q = .out := by
  intro q holds
  rw [uses.2] at holds
  rw [← Option.some.inj holds]
  exact uses.1

theorem Ordered.step (ordered : Ordered s queue) {action : Action Pid} {after : System Pid}
    (stepped : step s action = some after) : ∃ queue, Ordered after queue := by
  cases action with
  | take p b blockno valid dirty data =>
    simp only [Ide.step, Option.ite_none_right_eq_some, Option.some.injEq] at stepped
    obtain ⟨⟨out, free, inside⟩, rfl⟩ := stepped
    exact ⟨queue, ordered.rebuf (fun q holds => by rw [free] at holds; cases holds) _ _
      fun q holds => ⟨rfl, rfl, inside⟩⟩
  | change p b valid dirty data =>
    simp only [Ide.step, Option.ite_none_right_eq_some, Option.some.injEq] at stepped
    obtain ⟨uses, rfl⟩ := stepped
    have moved := ordered.rebuf (Uses.idle uses) { s.buf b with valid, dirty, data } (s.holder b)
      fun q holds => ordered.held b q holds
    rw [update_eq_self] at moved
    exact ⟨queue, moved⟩
  | drop p b =>
    simp only [Ide.step, Option.ite_none_right_eq_some, Option.some.injEq] at stepped
    obtain ⟨uses, rfl⟩ := stepped
    exact ⟨queue, ordered.rebuf (Uses.idle uses) _ _ fun q => nofun⟩
  | call p b =>
    simp only [Ide.step, Option.ite_none_right_eq_some, Option.ite_none_left_eq_some,
      Option.some.injEq] at stepped
    obtain ⟨uses, -, todo, rfl⟩ := stepped
    refine ⟨queue, ordered.setPc ?_ (fun c inside => by rcases inside with x | x <;> cases x) ?_⟩
    · rintro c same
      cases same
      exact ⟨uses.2, ordered.not_queued (Uses.idle uses), by unfold Todo; simpa using todo⟩
    · intro c among waiting
      rw [uses.1] at waiting
      rcases waiting with absurdity | absurdity <;> cases absurdity
  | enqueue p =>
    dsimp only [Ide.step] at stepped
    split at stepped
    next b here =>
      exact ⟨_, ordered.enqueue here stepped⟩
    · cases stepped
  | complete =>
    dsimp only [Ide.step] at stepped
    split at stepped
    next command busy =>
      cases stepped
      exact ⟨queue, ordered.complete busy⟩
    · cases stepped
  | ideintr =>
    dsimp only [Ide.step] at stepped
    split at stepped
    next data done =>
      obtain ⟨b, rest, rfl, -⟩ := ordered.finished done
      exact ⟨rest, ordered.ideintr stepped⟩
    · cases stepped
  | rouse p =>
    dsimp only [Ide.step] at stepped
    split at stepped
    next b here =>
      cases stepped
      refine ⟨queue, ordered.setPc (fun c => nofun) ?_ ?_⟩
      · rintro c (absurdity | same)
        · cases absurdity
        · cases same
          exact ordered.inside p b (.inl here)
      · intro c among waiting
        rw [here] at waiting
        rcases waiting with same | absurdity
        · cases same
          exact .inr rfl
        · cases absurdity
    · cases stepped
  | resume p =>
    dsimp only [Ide.step] at stepped
    split at stepped
    next b here =>
      cases stepped
      obtain ⟨holds, known⟩ := ordered.inside p b (.inr here)
      refine ⟨queue, ordered.await holds known ?_⟩
      intro c among waiting
      rw [here] at waiting
      rcases waiting with absurdity | same
      · cases absurdity
      · cases same
        rfl
    · cases stepped

omit [DecidableEq Pid] in
theorem ordered_init (medium : Disk) : Ordered (System.init Pid medium) [] := by
  refine ⟨rfl, List.nodup_nil, rfl, fun b => nofun, fun b => nofun, fun b p => nofun,
    fun p b => nofun, ?_, [], rfl, rfl⟩
  intro p b inside
  rcases inside with absurdity | absurdity <;> cases absurdity

/-- The states of all runs from an idle drive. -/
abbrev Run (medium : Disk) : System Pid → Prop :=
  Transition.Reachable step (fun _ _ => True) (System.init Pid medium)

theorem Run.ordered {medium : Disk} (reachable : Run medium s) : ∃ queue, Ordered s queue :=
  reachable.invariant (fun s => ∃ queue, Ordered s queue) ⟨[], ordered_init medium⟩
    fun _ _ _ ⟨_, ordered⟩ _ stepped => ordered.step stepped

end Steps

end Xv6.Ide
