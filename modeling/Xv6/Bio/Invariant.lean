import Xv6.Bio.Model

/-!
# The representation of the buffer cache

The links form a circular list of all buffers, in order of their last release;
no block is cached twice; and a busy buffer belongs to one process, which asked
for the block it holds.  Nothing is known about a buffer after a `sleep`, but
`bget` scans the list again in the section in which it takes a buffer.
-/

open Function (update update_of_ne update_self)

namespace Xv6.Bio

open Links

variable {Pid Device : Type}

/-- `a` was released after `b`, or neither has been released. -/
def Cache.MoreRecent (s : Cache Pid Device) (a b : BufId) : Prop :=
  s.released b < s.released a ∨ s.released a = 0 ∧ s.released b = 0

structure Cache.Listed (s : Cache Pid Device) (order : List BufId) : Prop where
  linked : Linked s.links order
  all : ∀ b, b ∈ order
  recent : order.Pairwise s.MoreRecent

structure Intact (s : Cache Pid Device) : Prop where
  list : ∃ order, s.Listed order
  unique : ∀ b c, (s.buf b).dev ≠ NODEV → (s.buf b).dev = (s.buf c).dev →
    (s.buf b).blockno = (s.buf c).blockno → b = c
  exclusive : ∀ p q b, s.held p b ≠ none → s.held q b ≠ none → p = q
  busy : ∀ b, (s.buf b).busy = true ↔ ∃ p, s.held p b ≠ none
  asked : ∀ p b dev blockno, s.held p b = some (dev, blockno) →
    (s.buf b).dev = dev ∧ (s.buf b).blockno = blockno
  clock : ∀ b, s.released b ≤ s.clock

/-- A driver changes the contents of a buffer and the other two flags. -/
structure Driver.Ok (driver : Driver Device) : Prop where
  keeps : ∀ buf device buf' device', driver buf device = some (buf', device') →
    buf'.busy = buf.busy ∧ buf'.dev = buf.dev ∧ buf'.blockno = buf.blockno

/-! ## Scanning -/

theorem scan_eq_find? {link : Option BufId → Option BufId} (test : BufId → Bool)
    {node : Option BufId} {path : List BufId} (walk : Path link node path none) {fuel : Nat}
    (enough : path.length ≤ fuel) : scan link test fuel (link node) = path.find? test := by
  induction path generalizing node fuel with
  | nil =>
    rw [show link node = none from walk]
    cases fuel <;> rfl
  | cons b path ih =>
    rw [List.length_cons] at enough
    obtain ⟨fuel, rfl⟩ : ∃ less, fuel = less + 1 := ⟨fuel - 1, by omega⟩
    rw [walk.1, scan, List.find?_cons]
    cases test b with
    | true => rfl
    | false => exact ih walk.2 (by omega)

section Scans

variable {s : Cache Pid Device} {order : List BufId}

theorem Cache.Listed.length_le (listed : s.Listed order) : order.length ≤ NBUF := by
  have bound := listed.linked.nodup.length_le_card
  rwa [Fintype.card_fin] at bound

theorem Cache.Listed.scan_next (listed : s.Listed order) (test : BufId → Bool) :
    scan s.links.next test NBUF (s.links.next none) = order.find? test :=
  scan_eq_find? test listed.linked.forward listed.length_le

theorem Cache.Listed.scan_prev (listed : s.Listed order) (test : BufId → Bool) :
    scan s.links.prev test NBUF (s.links.prev none) = order.reverse.find? test :=
  scan_eq_find? test listed.linked.backward (by rw [List.length_reverse]; exact listed.length_le)

end Scans

/-! ## Steps -/

section Steps

variable [DecidableEq Pid] {driver : Driver Device} {s after : Cache Pid Device} {p : Pid}
  {b : BufId} {dev blockno : Nat} {buf : Buf}

/-- What `bget` can do: sleep on the buffer that caches the block, take it, or
take a clean buffer for the block if none caches it. -/
theorem Intact.bget_cases (intact : Intact s) (returns : s.bget p dev blockno = some after) :
    (∃ b, (s.buf b).dev = dev ∧ (s.buf b).blockno = blockno ∧ (s.buf b).busy = true ∧
      after = s.setPc p (.asleep dev blockno b)) ∨
    (∃ b, (s.buf b).dev = dev ∧ (s.buf b).blockno = blockno ∧ (s.buf b).busy = false ∧
      after = s.getBuf p dev blockno b { s.buf b with busy := true }) ∨
    (∃ b, (∀ c, (s.buf c).dev = dev → (s.buf c).blockno ≠ blockno) ∧ (s.buf b).busy = false ∧
      (s.buf b).dirty = false ∧ after = s.getBuf p dev blockno b
        ⟨true, false, false, dev, blockno, (s.buf b).data⟩) := by
  obtain ⟨order, listed⟩ := intact.list
  unfold Cache.bget at returns
  rw [listed.scan_next, listed.scan_prev] at returns
  cases cached : order.find? (s.caches dev blockno) with
  | some b =>
    have found := List.find?_some cached
    rw [Cache.caches, Bool.and_eq_true, beq_iff_eq, beq_iff_eq] at found
    rw [cached] at returns
    dsimp only at returns
    split at returns
    next taken =>
      exact .inl ⟨b, found.1, found.2, taken, (Option.some.inj returns).symm⟩
    next idle =>
      exact .inr (.inl ⟨b, found.1, found.2, Bool.eq_false_iff.mpr idle,
        (Option.some.inj returns).symm⟩)
  | none =>
    rw [cached] at returns
    have absent : ∀ c, (s.buf c).dev = dev → (s.buf c).blockno ≠ blockno := by
      intro c sameDev sameBlock
      have fails := List.find?_eq_none.mp cached c (listed.all c)
      rw [Cache.caches, sameDev, sameBlock] at fails
      simp at fails
    cases free : order.reverse.find? s.clean with
    | none =>
      rw [free] at returns
      cases returns
    | some b =>
      rw [free] at returns
      have found := List.find?_some free
      rw [Cache.clean, Bool.and_eq_true, Bool.not_eq_true', Bool.not_eq_true'] at found
      exact .inr (.inr ⟨b, absent, found.1, found.2, (Option.some.inj returns).symm⟩)

/-- A step that moves processes and changes the contents, `B_VALID` or
`B_DIRTY` of buffers. -/
structure Touched (s after : Cache Pid Device) : Prop where
  links : after.links = s.links
  held : after.held = s.held
  clock : after.clock = s.clock
  released : after.released = s.released
  bufs : ∀ b, (after.buf b).busy = (s.buf b).busy ∧ (after.buf b).dev = (s.buf b).dev ∧
    (after.buf b).blockno = (s.buf b).blockno

theorem touched_setPc (pc : Pc) : Touched s (s.setPc p pc) :=
  ⟨rfl, rfl, rfl, rfl, fun _ => ⟨rfl, rfl, rfl⟩⟩

omit [DecidableEq Pid] in
theorem Touched.of_buf (buf : Buf) (busy : buf.busy = (s.buf b).busy)
    (sameDev : buf.dev = (s.buf b).dev) (sameBlock : buf.blockno = (s.buf b).blockno)
    (links : after.links = s.links) (held : after.held = s.held) (clock : after.clock = s.clock)
    (released : after.released = s.released) (bufs : after.buf = update s.buf b buf) :
    Touched s after := by
  refine ⟨links, held, clock, released, fun c => ?_⟩
  rw [bufs]
  by_cases here : c = b
  · subst here
    rw [update_self]
    exact ⟨busy, sameDev, sameBlock⟩
  · rw [update_of_ne here]
    exact ⟨rfl, rfl, rfl⟩

/-- What a step can do: change a buffer but not what it stands for, take a
buffer that is not busy, or release one. -/
theorem Intact.step_cases {action : Action Pid} (intact : Intact s) (ok : driver.Ok)
    (stepped : step driver s action = some after) :
    Touched s after ∨
    (∃ p dev blockno b, s.pc p = .bget dev blockno ∧ (s.buf b).dev = dev ∧
      (s.buf b).blockno = blockno ∧ (s.buf b).busy = false ∧
      after = s.getBuf p dev blockno b { s.buf b with busy := true }) ∨
    (∃ p dev blockno b, s.pc p = .bget dev blockno ∧
      (∀ c, (s.buf c).dev = dev → (s.buf c).blockno ≠ blockno) ∧ (s.buf b).busy = false ∧
      (s.buf b).dirty = false ∧ after = s.getBuf p dev blockno b
        ⟨true, false, false, dev, blockno, (s.buf b).data⟩) ∨
    ∃ p b, s.held p b ≠ none ∧ s.brelse p b = some after := by
  have transfer : ∀ p b result, s.iderw driver p b result = some after → Touched s after := by
    intro p b result returns
    unfold Cache.iderw at returns
    cases moves : driver (s.buf b) s.device with
    | none =>
      rw [moves] at returns
      cases returns
    | some moved =>
      rw [moves] at returns
      cases returns
      obtain ⟨busy, sameDev, sameBlock⟩ := ok.keeps _ _ _ _ moves
      exact .of_buf moved.1 busy sameDev sameBlock rfl rfl rfl rfl rfl
  cases action with
  | bread q dev blockno =>
    dsimp only [step] at stepped
    split at stepped
    · cases stepped
      exact .inl (touched_setPc _)
    · cases stepped
  | bget q =>
    dsimp only [step] at stepped
    split at stepped
    next dev blockno here =>
      rcases intact.bget_cases stepped with ⟨b, _, _, _, rfl⟩ | ⟨b, hit⟩ | ⟨b, miss⟩
      · exact .inl (touched_setPc _)
      · exact .inr (.inl ⟨q, dev, blockno, b, here, hit⟩)
      · exact .inr (.inr (.inl ⟨q, dev, blockno, b, here, miss⟩))
    · cases stepped
  | rouse q =>
    dsimp only [step] at stepped
    split at stepped
    · cases stepped
      exact .inl (touched_setPc _)
    · cases stepped
  | iderw q =>
    dsimp only [step] at stepped
    split at stepped
    · exact .inl (transfer _ _ _ stepped)
    · exact .inl (transfer _ _ _ stepped)
    · cases stepped
  | modify q c data =>
    dsimp only [step] at stepped
    split at stepped
    · cases stepped
      exact .inl (.of_buf { s.buf c with data := data } rfl rfl rfl rfl rfl rfl rfl rfl)
    · cases stepped
  | logWrite q c =>
    dsimp only [step] at stepped
    split at stepped
    · cases stepped
      exact .inl (.of_buf { s.buf c with dirty := true } rfl rfl rfl rfl rfl rfl rfl rfl)
    · cases stepped
  | bwrite q c =>
    dsimp only [step] at stepped
    split at stepped
    swap
    · cases stepped
    unfold Cache.bwrite at stepped
    split at stepped
    · cases stepped
      exact .inl (.of_buf { s.buf c with dirty := true } rfl rfl rfl rfl rfl rfl rfl rfl)
    · cases stepped
  | brelse q c =>
    dsimp only [step] at stepped
    split at stepped
    next uses =>
      exact .inr (.inr (.inr ⟨q, c, uses.2, stepped⟩))
    · cases stepped

omit [DecidableEq Pid] in
theorem Intact.touch (intact : Intact s) (touched : Touched s after) : Intact after := by
  obtain ⟨links, held, clock, released, bufs⟩ := touched
  refine ⟨?_, ?_, ?_, ?_, ?_, ?_⟩
  · obtain ⟨order, linked, all, recent⟩ := intact.list
    refine ⟨order, links ▸ linked, all, ?_⟩
    unfold Cache.MoreRecent
    rw [released]
    exact recent
  · intro b c
    rw [(bufs b).2.1, (bufs b).2.2, (bufs c).2.1, (bufs c).2.2]
    exact intact.unique b c
  · rw [held]
    exact intact.exclusive
  · intro b
    rw [(bufs b).1, held]
    exact intact.busy b
  · intro q c
    rw [held, (bufs c).2.1, (bufs c).2.2]
    exact intact.asked q c
  · rw [released, clock]
    exact intact.clock

theorem update_held (held : Pid → BufId → Option (Nat × Nat)) (p q : Pid) (b c : BufId)
    (value : Option (Nat × Nat)) :
    update held p (update (held p) b value) q c =
      if q = p ∧ c = b then value else held q c := by
  by_cases here : q = p
  · subst here
    rw [update_self]
    by_cases same : c = b
    · rw [same, update_self, if_pos ⟨rfl, rfl⟩]
    · rw [update_of_ne same, if_neg fun both => same both.2]
  · rw [update_of_ne here, if_neg fun both => here both.1]

theorem getBuf_held_self : (s.getBuf p dev blockno b buf).held p b = some (dev, blockno) :=
  (update_held _ _ _ _ _ _).trans (if_pos ⟨rfl, rfl⟩)

theorem getBuf_held_ne {q : Pid} {c : BufId} (other : ¬(q = p ∧ c = b)) :
    (s.getBuf p dev blockno b buf).held q c = s.held q c :=
  (update_held _ _ _ _ _ _).trans (if_neg other)

theorem getBuf_buf : (s.getBuf p dev blockno b buf).buf = update s.buf b buf := rfl

theorem Intact.getBuf (intact : Intact s) (idle : (s.buf b).busy = false) (busy : buf.busy = true)
    (isDev : buf.dev = dev) (isBlock : buf.blockno = blockno)
    (alone : dev ≠ NODEV → ∀ c, c ≠ b → (s.buf c).dev = dev → (s.buf c).blockno ≠ blockno) :
    Intact (s.getBuf p dev blockno b buf) := by
  have free : ∀ q, s.held q b = none := by
    intro q
    by_contra holds
    have taken := (intact.busy b).mpr ⟨q, holds⟩
    rw [idle] at taken
    cases taken
  have self : (s.getBuf p dev blockno b buf).buf b = buf := by rw [getBuf_buf, update_self]
  have others : ∀ c, c ≠ b → (s.getBuf p dev blockno b buf).buf c = s.buf c := by
    intro c other
    rw [getBuf_buf, update_of_ne other]
  refine ⟨?_, ?_, ?_, ?_, ?_, intact.clock⟩
  · obtain ⟨order, linked, all, recent⟩ := intact.list
    exact ⟨order, linked, all, recent⟩
  · intro c d
    by_cases first : c = b
    · by_cases second : d = b
      · intros
        rw [first, second]
      · rw [first, self, others d second, isDev, isBlock]
        intro proper sameDev sameBlock
        exact absurd sameBlock.symm (alone proper d second sameDev.symm)
    · by_cases second : d = b
      · rw [second, self, others c first, isDev, isBlock]
        intro proper sameDev sameBlock
        exact absurd sameBlock (alone (sameDev ▸ proper) c first sameDev)
      · rw [others c first, others d second]
        exact intact.unique c d
  · intro q r c one two
    by_cases here : c = b
    · subst here
      have mine : ∀ x, (s.getBuf p dev blockno c buf).held x c ≠ none → x = p := by
        intro x holds
        by_contra other
        rw [getBuf_held_ne fun same => other same.1] at holds
        exact holds (free x)
      rw [mine q one, mine r two]
    · rw [getBuf_held_ne fun same => here same.2] at one two
      exact intact.exclusive q r c one two
  · intro c
    by_cases here : c = b
    · rw [here, self, busy]
      exact iff_of_true rfl ⟨p, by rw [getBuf_held_self]; exact Option.some_ne_none _⟩
    · have same : ∀ q, (s.getBuf p dev blockno b buf).held q c = s.held q c :=
        fun q => getBuf_held_ne fun both => here both.2
      simp only [same, others c here]
      exact intact.busy c
  · intro q c asDev asBlock holds
    by_cases here : q = p ∧ c = b
    · obtain ⟨rfl, rfl⟩ := here
      rw [getBuf_held_self, Option.some.injEq, Prod.mk.injEq] at holds
      rw [self, isDev, isBlock]
      exact holds
    · rw [getBuf_held_ne here] at holds
      have asked := intact.asked q c asDev asBlock holds
      by_cases same : c = b
      · rw [same, free q] at holds
        cases holds
      · rwa [others c same]

theorem Intact.listed_brelse (intact : Intact s) {order : List BufId} (listed : s.Listed order)
    (returns : s.brelse p b = some after) : after.Listed (b :: order.erase b) := by
  obtain ⟨linked, all, recent⟩ := listed
  unfold Cache.brelse at returns
  split at returns
  swap
  · cases returns
  cases returns
  refine ⟨linked.moveFront (all b), ?_, ?_⟩
  · intro c
    by_cases here : c = b
    · exact List.mem_cons.mpr (.inl here)
    · exact List.mem_cons_of_mem _ ((List.mem_erase_of_ne here).mpr (all c))
  · have apart : ∀ c ∈ order.erase b, c ≠ b := by
      rintro c among rfl
      exact linked.nodup.not_mem_erase among
    refine List.pairwise_cons.mpr ⟨?_, ?_⟩
    · intro c among
      refine .inl ?_
      dsimp only
      rw [update_self, update_of_ne (apart c among)]
      exact Nat.lt_succ_of_le (intact.clock c)
    · refine (recent.sublist List.erase_sublist).imp_of_mem ?_
      intro c d amongC amongD before
      unfold Cache.MoreRecent
      dsimp only
      rw [update_of_ne (apart c amongC), update_of_ne (apart d amongD)]
      exact before

theorem Intact.brelse (intact : Intact s) (holds : s.held p b ≠ none)
    (returns : s.brelse p b = some after) : Intact after := by
  have list : ∃ order, after.Listed order :=
    intact.list.imp' (b :: ·.erase b) fun _ listed => intact.listed_brelse listed returns
  unfold Cache.brelse at returns
  split at returns
  swap
  · cases returns
  cases returns
  have only : ∀ q, s.held q b ≠ none → q = p := fun q other => intact.exclusive q p b other holds
  have bufs : ∀ c, (update s.buf b { s.buf b with busy := false } c).dev = (s.buf c).dev ∧
      (update s.buf b { s.buf b with busy := false } c).blockno = (s.buf c).blockno := by
    intro c
    by_cases here : c = b
    · subst here
      rw [update_self]
      exact ⟨rfl, rfl⟩
    · rw [update_of_ne here]
      exact ⟨rfl, rfl⟩
  refine ⟨list, ?_, ?_, ?_, ?_, ?_⟩
  · intro c d
    dsimp only [Cache.setBuf]
    rw [(bufs c).1, (bufs c).2, (bufs d).1, (bufs d).2]
    exact intact.unique c d
  · intro q r c
    dsimp only
    rw [update_held, update_held]
    split
    · exact fun absurdity => absurd rfl absurdity
    split
    · exact fun _ absurdity => absurd rfl absurdity
    · exact intact.exclusive q r c
  · intro c
    dsimp only [Cache.setBuf]
    simp only [update_held]
    by_cases here : c = b
    · subst here
      rw [update_self]
      refine iff_of_false Bool.false_ne_true ?_
      rintro ⟨q, stillHeld⟩
      split at stillHeld
      · exact stillHeld rfl
      next other =>
        exact other ⟨only q stillHeld, rfl⟩
    · rw [update_of_ne here, intact.busy c]
      simp only [here, and_false, if_false]
  · intro q c asDev asBlock
    dsimp only [Cache.setBuf]
    rw [update_held, (bufs c).1, (bufs c).2]
    split
    · intro absurdity
      cases absurdity
    · exact intact.asked q c asDev asBlock
  · intro c
    dsimp only
    by_cases here : c = b
    · rw [here, update_self]
    · rw [update_of_ne here]
      exact Nat.le_succ_of_le (intact.clock c)

theorem Intact.step {action : Action Pid} (intact : Intact s) (ok : driver.Ok)
    (stepped : step driver s action = some after) : Intact after := by
  rcases intact.step_cases ok stepped with
    touched | ⟨p, dev, blockno, b, _, isDev, isBlock, idle, rfl⟩ |
    ⟨p, dev, blockno, b, _, absent, idle, _, rfl⟩ | ⟨p, b, holds, returns⟩
  · exact intact.touch touched
  · refine intact.getBuf idle rfl isDev isBlock fun proper c other sameDev sameBlock => other ?_
    exact intact.unique c b (sameDev ▸ proper) (sameDev.trans isDev.symm)
      (sameBlock.trans isBlock.symm)
  · exact intact.getBuf idle rfl rfl rfl fun _ c _ => absent c
  · exact intact.brelse holds returns

theorem Intact.kept {action : Action Pid} (intact : Intact s) (ok : driver.Ok)
    (stepped : Bio.step driver s action = some after) {c : BufId}
    (pinned : (s.buf c).busy = true ∨ (s.buf c).dirty = true) :
    (after.buf c).dev = (s.buf c).dev ∧ (after.buf c).blockno = (s.buf c).blockno := by
  have updated : ∀ b buf, (c = b → buf.dev = (s.buf b).dev ∧ buf.blockno = (s.buf b).blockno) →
      (update s.buf b buf c).dev = (s.buf c).dev ∧
        (update s.buf b buf c).blockno = (s.buf c).blockno := by
    intro b buf same
    by_cases here : c = b
    · subst here
      rw [update_self]
      exact same rfl
    · rw [update_of_ne here]
      exact ⟨rfl, rfl⟩
  rcases intact.step_cases ok stepped with
    touched | ⟨p, dev, blockno, b, _, isDev, isBlock, idle, rfl⟩ |
    ⟨p, dev, blockno, b, _, absent, idle, undirtied, rfl⟩ | ⟨p, b, holds, returns⟩
  · exact (touched.bufs c).2
  · exact updated b _ fun _ => ⟨rfl, rfl⟩
  · refine updated b _ ?_
    rintro rfl
    rw [idle, undirtied] at pinned
    exact pinned.elim (fun absurdity => by cases absurdity) (fun absurdity => by cases absurdity)
  · unfold Cache.brelse at returns
    split at returns
    · cases returns
      exact updated b _ fun _ => ⟨rfl, rfl⟩
    · cases returns

theorem Intact.bget_returns (intact : Intact s) (here : s.pc p = .bget dev blockno)
    (stepped : Bio.step driver s (.bget p) = some after) :
    (∃ b, after.pc p = .asleep dev blockno b) ∨
    ∃ b, (after.pc p = .out (some b) ∨ after.pc p = .reading b) ∧
      after.held p b = some (dev, blockno) ∧ (after.buf b).busy = true ∧
      (after.buf b).dev = dev ∧ (after.buf b).blockno = blockno := by
  have taken : ∀ b buf, (s.getBuf p dev blockno b buf).pc p = .out (some b) ∨
      (s.getBuf p dev blockno b buf).pc p = .reading b := by
    intro b buf
    dsimp only [Cache.getBuf, Cache.setPc]
    rw [update_self]
    split
    · exact .inl rfl
    · exact .inr rfl
  dsimp only [Bio.step] at stepped
  rw [here] at stepped
  rcases intact.bget_cases stepped with ⟨b, _, _, _, rfl⟩ | ⟨b, isDev, isBlock, _, rfl⟩ |
    ⟨b, _, _, _, rfl⟩
  · exact .inl ⟨b, update_self p _ s.pc⟩
  · refine .inr ⟨b, taken _ _, getBuf_held_self, ?_⟩
    rw [getBuf_buf, update_self]
    exact ⟨rfl, isDev, isBlock⟩
  · refine .inr ⟨b, taken _ _, getBuf_held_self, ?_⟩
    rw [getBuf_buf, update_self]
    exact ⟨rfl, rfl, rfl⟩

theorem Pc.wakeup_ne_asleep (b : BufId) (pc : Pc) (dev blockno : Nat) :
    pc.wakeup b ≠ .asleep dev blockno b := by
  cases pc with
  | asleep dev' blockno' c =>
    rw [wakeup]
    split
    · simp
    next other => simp [other]
  | _ => simp [wakeup]

/-- `brelse` gives the buffer up, moves it to the front and wakes who sleeps on it. -/
theorem Intact.brelse_releases (intact : Intact s)
    (stepped : Bio.step driver s (.brelse p b) = some after) :
    (after.buf b).busy = false ∧ (∀ q, after.held q b = none) ∧
      (∀ order, s.Listed order → after.Listed (b :: order.erase b)) ∧
      ∀ q dev blockno, after.pc q ≠ .asleep dev blockno b := by
  dsimp only [Bio.step] at stepped
  split at stepped
  swap
  · cases stepped
  next uses =>
    have front := fun order (listed : s.Listed order) => intact.listed_brelse listed stepped
    have held := (intact.brelse uses.2 stepped).busy b
    unfold Cache.brelse at stepped
    split at stepped
    swap
    · cases stepped
    cases stepped
    have idle : (update s.buf b { s.buf b with busy := false } b).busy = false := by
      rw [update_self]
    refine ⟨idle, fun q => ?_, front, fun q dev blockno => ?_⟩
    · by_contra taken
      exact absurd (held.mpr ⟨q, taken⟩) (by rw [Bool.not_eq_true]; exact idle)
    · exact Pc.wakeup_ne_asleep b (s.pc q) dev blockno

end Steps

/-! ## Runs -/

theorem linked_initLinks {bs order : List BufId} {links : Links BufId} (linked : Linked links order)
    (nodup : (bs.reverse ++ order).Nodup) : Linked (initLinks bs links) (bs.reverse ++ order) := by
  induction bs generalizing links order with
  | nil => exact linked
  | cons b rest ih =>
    rw [List.reverse_cons, List.append_assoc, List.singleton_append] at nodup ⊢
    refine ih (linked.pushFront ?_) nodup
    exact (List.nodup_cons.mp (List.nodup_append.mp nodup).2.1).1

theorem intact_binit (device : Device) : Intact (binit Pid device) := by
  have linked : Linked (initLinks (List.finRange NBUF) ⟨fun _ => none, fun _ => none⟩)
      ((List.finRange NBUF).reverse ++ []) := by
    refine linked_initLinks ⟨List.nodup_nil, rfl, rfl⟩ ?_
    rw [List.append_nil]
    exact List.nodup_reverse.mpr (List.nodup_finRange NBUF)
  rw [List.append_nil] at linked
  refine ⟨⟨_, linked, ?_, ?_⟩, ?_, ?_, ?_, ?_, ?_⟩
  · exact fun b => List.mem_reverse.mpr (List.mem_finRange b)
  · exact List.pairwise_of_forall fun _ _ => .inr ⟨rfl, rfl⟩
  · exact fun b c proper => absurd rfl proper
  · exact fun p q b holds => absurd rfl holds
  · exact fun b => iff_of_false Bool.false_ne_true fun ⟨p, holds⟩ => holds rfl
  · intro p b dev blockno holds
    cases holds
  · exact fun b => Nat.le_refl 0

variable [DecidableEq Pid]

/-- The states of all runs. -/
abbrev Run (driver : Driver Device) (device : Device) : Cache Pid Device → Prop :=
  Transition.Reachable (step driver) (fun _ _ => True) (binit Pid device)

def zeroDriver : Driver Unit := fun buf device =>
  some ({ buf with
      valid := true, dirty := false, data := if buf.dirty then buf.data else fun _ => 0 },
    device)

theorem zeroDriver_ok : zeroDriver.Ok := by
  refine ⟨fun buf device buf' device' moves => ?_⟩
  cases moves
  exact ⟨rfl, rfl, rfl⟩

theorem Run.intact {driver : Driver Device} {device : Device} {s : Cache Pid Device}
    (ok : driver.Ok) (run : Run driver device s) : Intact s :=
  run.invariant Intact (intact_binit device) fun _ _ _ intact _ stepped => intact.step ok stepped

/-- The representation invariant of the buffer cache, in every state of every
run, and what the next step does and does not do. -/
theorem cache_intact {driver : Driver Device} {device : Device} {s : Cache Pid Device}
    (ok : driver.Ok) (run : Run driver device s) :
    Intact s ∧ ∀ action after, step driver s action = some after →
      (∀ b, (s.buf b).busy = true ∨ (s.buf b).dirty = true →
        (after.buf b).dev = (s.buf b).dev ∧ (after.buf b).blockno = (s.buf b).blockno) ∧
      (∀ p dev blockno, action = .bget p → s.pc p = .bget dev blockno →
        (∃ b, after.pc p = .asleep dev blockno b) ∨
        ∃ b, (after.pc p = .out (some b) ∨ after.pc p = .reading b) ∧
          after.held p b = some (dev, blockno) ∧ (after.buf b).busy = true ∧
          (after.buf b).dev = dev ∧ (after.buf b).blockno = blockno) ∧
      ∀ p b, action = .brelse p b → (after.buf b).busy = false ∧ (∀ q, after.held q b = none) ∧
        (∀ order, s.Listed order → after.Listed (b :: order.erase b)) ∧
        ∀ q dev blockno, after.pc q ≠ .asleep dev blockno b := by
  have intact := run.intact ok
  refine ⟨intact, fun action after stepped =>
    ⟨fun b pinned => intact.kept ok stepped pinned, ?_, ?_⟩⟩
  · rintro p dev blockno rfl here
    exact intact.bget_returns here stepped
  · rintro p b rfl
    exact intact.brelse_releases stepped

/-- Process 1 sleeps on the buffer of block 5 until process 0 releases it.  Before process 1 runs
again, process 0 has taken all buffers, this one for block 6, and released another, which process
1 then gets for block 5. -/
theorem cache_intact_asleep : ∃ s : Cache (Fin 2) Unit,
    (s.held 0 ⟨0, by decide⟩ = some (1, 6) ∧ s.held 1 ⟨1, by decide⟩ = some (1, 5)) ∧ Intact s := by
  have found : ∃ s : Cache (Fin 2) Unit, Run zeroDriver () s ∧
      s.held 0 ⟨0, by decide⟩ = some (1, 6) ∧ s.held 1 ⟨1, by decide⟩ = some (1, 5) := by
    refine Transition.Reachable.exists_of_run (fun _ _ => true) (fun _ _ _ => trivial) _
      ([.bread 0 1 5, .bget 0, .iderw 0, .bread 1 1 5, .bget 1, .brelse 0 ⟨0, by decide⟩] ++
        (List.range 29).flatMap (fun k => [.bread 0 1 (100 + k), .bget 0, .iderw 0]) ++
        [.bread 0 1 6, .bget 0, .iderw 0, .brelse 0 ⟨1, by decide⟩, .bget 1]) ?_
    decide +kernel
  obtain ⟨s, run, holds⟩ := found
  exact ⟨s, holds, (cache_intact zeroDriver_ok run).1⟩

end Xv6.Bio
