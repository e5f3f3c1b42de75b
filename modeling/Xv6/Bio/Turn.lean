import Xv6.Bio.Commit

/-!
# Following `commit`

The process in `commit` runs among others.  What it knows is a `View`: the block
and the contents of each buffer it holds, and what was last given to the blocks
of these buffers and to some more blocks that nobody else gives anything, the
protected ones.  `View.spec` says what an operation does to the view, and asks
that a buffer be released as its block was last given.

`Follows` says that what is left of the turn is right for what the process
knows.  It is kept by the steps of all other processes, because they cannot
change what the process knows, and by its own steps.
-/

open Function (update update_of_ne update_self)

namespace Xv6.Bio

open Ide (memIderw)

/-- What the process in `commit` knows. -/
structure View where
  which : BufId → Option Nat
  data : BufId → Block
  content : Disk

/-- `bread` returns a buffer that has the contents last given to its block. -/
def View.take (v : View) (b : BufId) (n : Nat) (data : Block) : View where
  which := update v.which b (some n)
  data := update v.data b data
  content := update v.content n data

/-- What an operation does, with what it asks before.  `guar` is asked of each
`bwrite`. -/
def View.spec (prot : Nat → Prop) (guar : Nat → Block → Disk → Prop) :
    (op : CommitOp) → (op.Reply → View → Prop) → View → Prop
  | .bread n, next, v => ∀ b data, v.which b = none → (prot n → data = v.content n) →
      next b (v.take b n data)
  | .load b, next, v => v.which b ≠ none ∧ next (v.data b) v
  | .store b data, next, v => v.which b ≠ none ∧
      next () { v with data := update v.data b data }
  | .bwrite b, next, v => ∃ n, v.which b = some n ∧ guar n (v.data b) v.content ∧
      next () { v with content := update v.content n (v.data b) }
  | .brelse b, next, v => ∃ n, v.which b = some n ∧ v.data b = v.content n ∧
      next () { v with which := update v.which b none }

def Ready (prot : Nat → Prop) (guar : Nat → Block → Disk → Prop) (post : Disk → Prop)
    (rest : CommitM Unit) (v : View) : Prop :=
  rest.wp (View.spec prot guar) (fun _ v => post v.content) v

/-! ## The turns -/

section Turns

variable {prot : Nat → Prop} {guar : Nat → Block → Disk → Prop} {post : Disk → Prop} {v : View}
  {b : BufId} {n : Nat} {data : Block}

theorem ready_bread {next : BufId → CommitM Unit} :
    Ready prot guar post (CommitM.bread n >>= next) v ↔ ∀ b data, v.which b = none →
      (prot n → data = v.content n) → Ready prot guar post (next b) (v.take b n data) := Iff.rfl

theorem ready_load {next : Block → CommitM Unit} :
    Ready prot guar post (CommitM.load b >>= next) v ↔
      v.which b ≠ none ∧ Ready prot guar post (next (v.data b)) v := Iff.rfl

theorem ready_store {next : Unit → CommitM Unit} :
    Ready prot guar post (CommitM.store b data >>= next) v ↔ v.which b ≠ none ∧
      Ready prot guar post (next ()) { v with data := update v.data b data } := Iff.rfl

theorem ready_bwrite {next : Unit → CommitM Unit} :
    Ready prot guar post (CommitM.bwrite b >>= next) v ↔
      ∃ n, v.which b = some n ∧ guar n (v.data b) v.content ∧
        Ready prot guar post (next ()) { v with content := update v.content n (v.data b) } :=
  Iff.rfl

theorem ready_brelse {next : Unit → CommitM Unit} :
    Ready prot guar post (CommitM.brelse b >>= next) v ↔
      ∃ n, v.which b = some n ∧ v.data b = v.content n ∧
        Ready prot guar post (next ()) { v with which := update v.which b none } := Iff.rfl

theorem ready_brelse_last : Ready prot guar post (CommitM.brelse b) v ↔
    ∃ n, v.which b = some n ∧ v.data b = v.content n ∧ post v.content := Iff.rfl

theorem ne_of_take {c : BufId} (free : (v.take b n data).which c = none) : c ≠ b := by
  rintro rfl
  dsimp only [View.take] at free
  rw [update_self] at free
  cases free

variable (log : Log) {tail : Nat} {lh : List Nat}

theorem ready_writeLogTurn
    (right : ∀ old data, (prot (log.start + tail + 1) → old = v.content (log.start + tail + 1)) →
      (prot n → data = update v.content (log.start + tail + 1) old n) →
      guar (log.start + tail + 1) data
        (update (update v.content (log.start + tail + 1) old) n data) ∧
      post (update (update (update v.content (log.start + tail + 1) old) n data)
        (log.start + tail + 1) data)) :
    Ready prot guar post (writeLogTurn log tail n) v := by
  unfold writeLogTurn
  rw [ready_bread]
  intro target old freeTarget oldKnown
  rw [ready_bread]
  intro source data freeSource dataKnown
  have other : source ≠ target := ne_of_take freeSource
  obtain ⟨allowed, done⟩ := right old data oldKnown dataKnown
  rw [ready_load, ready_store, ready_bwrite]
  simp only [ready_brelse, ready_brelse_last, View.take, update_self,
    update_of_ne other, update_of_ne other.symm, Option.some.injEq, ne_eq, reduceCtorEq,
    not_false_eq_true, true_and, exists_eq_left']
  refine ⟨allowed, ?_, done⟩
  by_cases same : n = log.start + tail + 1
  · rw [same, update_self]
  · rw [update_of_ne same, update_self]

theorem ready_installTurn
    (right : ∀ data old, (prot (log.start + tail + 1) → data = v.content (log.start + tail + 1)) →
      (prot n → old = update v.content (log.start + tail + 1) data n) →
      guar n data (update (update v.content (log.start + tail + 1) data) n old) ∧
      post (update (update (update v.content (log.start + tail + 1) data) n old)
        n data)) :
    Ready prot guar post (installTurn log tail n) v := by
  unfold installTurn
  rw [ready_bread]
  intro lbuf data freeLog dataKnown
  rw [ready_bread]
  intro dbuf old freeHome oldKnown
  have other : dbuf ≠ lbuf := ne_of_take freeHome
  obtain ⟨allowed, done⟩ := right data old dataKnown oldKnown
  rw [ready_load, ready_store, ready_bwrite]
  simp only [ready_brelse, ready_brelse_last, View.take, update_self,
    update_of_ne other, update_of_ne other.symm, Option.some.injEq, ne_eq, reduceCtorEq,
    not_false_eq_true, true_and, exists_eq_left']
  refine ⟨allowed, ?_, done⟩
  by_cases same : log.start + tail + 1 = n
  · rw [← same, update_self]
  · rw [update_of_ne same, update_of_ne same, update_self]

theorem ready_writeHeadTurn
    (right : ∀ data, guar log.start (encodeHead data lh) (update v.content log.start data) ∧
      post (update (update v.content log.start data) log.start (encodeHead data lh))) :
    Ready prot guar post (writeHeadTurn log lh) v := by
  unfold writeHeadTurn
  rw [ready_bread]
  intro buf data free _
  obtain ⟨allowed, done⟩ := right data
  rw [ready_load, ready_store, ready_bwrite]
  simp only [ready_brelse_last, View.take, update_self, Option.some.injEq, ne_eq, reduceCtorEq,
    not_false_eq_true, true_and, exists_eq_left']
  exact ⟨allowed, done⟩

/-- Whatever the other processes do, a turn of `commit` releases its buffers as
their blocks were last given. -/
theorem ready_turn (pc : CommitPc) (v : View) :
    Ready (fun _ => False) (fun _ _ _ => True) (fun _ => True) (turn log lh pc) v := by
  cases pc with
  | writeLog tail =>
    dsimp only [turn]
    split
    · refine ready_writeLogTurn log ?_
      exact fun _ _ _ _ => ⟨trivial, trivial⟩
    · trivial
  | install tail =>
    dsimp only [turn]
    split
    · refine ready_installTurn log ?_
      exact fun _ _ _ _ => ⟨trivial, trivial⟩
    · trivial
  | writeHead =>
    refine ready_writeHeadTurn log ?_
    exact fun _ => ⟨trivial, trivial⟩
  | eraseHead =>
    refine ready_writeHeadTurn log ?_
    exact fun _ => ⟨trivial, trivial⟩
  | start | clear | done => trivial

end Turns

/-! ## What is known is kept -/

/-- The view is right, but for one buffer that `bread` is about to return. -/
structure Sees {Pid : Type} (prot : Nat → Prop) (s : Store Pid) (p : Pid) (skip : Option BufId)
    (v : View) : Prop where
  which : ∀ b n, v.which b = some n ↔ s.cache.held p b = some (1, n) ∧ skip ≠ some b
  data : ∀ b, v.which b ≠ none → v.data b = (s.cache.buf b).data
  content : ∀ n, prot n ∨ (∃ b, v.which b = some n) → v.content n = s.content n

def Pc.pending : Pc → Option BufId
  | .reading b => some b
  | _ => none

section Follow

variable {Pid : Type} {prot : Nat → Prop} {guar : Nat → Block → Disk → Prop} {post : Disk → Prop}

/-- What is left of a turn is right for a continuation of `bread(1, n)`. -/
def Expects (prot : Nat → Prop) (guar : Nat → Block → Disk → Prop) (post : Disk → Prop)
    (next : BufId → CommitM Unit) (v : View) (n : Nat) : Prop :=
  ∀ b data, v.which b = none → (prot n → data = v.content n) →
    Ready prot guar post (next b) (v.take b n data)

inductive Follows (prot : Nat → Prop) (guar : Nat → Block → Disk → Prop) (post : Disk → Prop)
    (s : Store Pid) (p : Pid) : Prop where
  | run (rest : CommitM Unit) (v : View) : s.code p = .run rest →
      (∃ result, s.cache.pc p = .out result) ∨ (∃ b, s.cache.pc p = .writing b) →
      Sees prot s p none v → Ready prot guar post rest v → Follows prot guar post s p
  | reads (next : BufId → CommitM Unit) (v : View) (n : Nat) : s.code p = .reading next →
      s.cache.Reads p 1 n → Sees prot s p (s.cache.pc p).pending v →
      Expects prot guar post next v n → Follows prot guar post s p
  | read (next : BufId → CommitM Unit) (v : View) (n : Nat) (b : BufId) : s.code p = .reading next →
      s.cache.pc p = .out (some b) → s.cache.held p b = some (1, n) →
      (s.cache.buf b).data = s.content n → Sees prot s p (some b) v →
      Expects prot guar post next v n → Follows prot guar post s p

/-- A step that another process has taken. -/
structure Undisturbed (prot : Nat → Prop) (s after : Store Pid) (p : Pid) : Prop where
  code : after.code p = s.code p
  held : after.cache.held p = s.cache.held p
  pc : after.cache.pc p = s.cache.pc p ∨ ∃ b, after.cache.pc p = (s.cache.pc p).wakeup b
  buf : ∀ b, s.cache.held p b ≠ none → after.cache.buf b = s.cache.buf b
  content : ∀ n, prot n ∨ (∃ b, s.cache.held p b = some (1, n)) → after.content n = s.content n

variable {s after : Store Pid} {p : Pid} {v : View} {skip : Option BufId} {b : BufId}

theorem Sees.held (sees : Sees prot s p skip v) (known : v.which b ≠ none) :
    s.cache.held p b ≠ none := by
  obtain ⟨n, isSome⟩ := Option.ne_none_iff_exists'.mp known
  rw [((sees.which b n).mp isSome).1]
  exact Option.some_ne_none _

theorem Sees.undisturbed (sees : Sees prot s p skip v) (undisturbed : Undisturbed prot s after p) :
    Sees prot after p skip v := by
  refine ⟨?_, ?_, ?_⟩
  · intro b n
    rw [undisturbed.held]
    exact sees.which b n
  · intro b known
    rw [undisturbed.buf b (sees.held known)]
    exact sees.data b known
  · intro n known
    rw [undisturbed.content n]
    · exact sees.content n known
    · exact known.imp id fun ⟨b, isSome⟩ => ⟨b, ((sees.which b n).mp isSome).1⟩

theorem Pc.wakeup_out {pc : Pc} {result : Option BufId} :
    pc.wakeup b = .out result ↔ pc = .out result := by
  cases pc with
  | asleep dev n chan =>
    rw [Pc.wakeup]
    split <;> simp
  | _ => rfl

theorem Pc.pending_wakeup (pc : Pc) : (pc.wakeup b).pending = pc.pending := by
  cases pc with
  | asleep dev n chan =>
    rw [Pc.wakeup]
    split <;> rfl
  | _ => rfl

theorem Follows.undisturbed (follows : Follows prot guar post s p)
    (undisturbed : Undisturbed prot s after p) : Follows prot guar post after p := by
  cases follows with
  | run rest v code place sees ready =>
    refine .run rest v (undisturbed.code.trans code) ?_ (sees.undisturbed undisturbed) ready
    rcases undisturbed.pc with same | ⟨b, same⟩
    · rw [same]
      exact place
    · simp only [same, Pc.wakeup_out, Pc.wakeup_writing]
      exact place
  | reads next v n code reads sees expects =>
    refine .reads next v n (undisturbed.code.trans code) ?_ ?_ expects
    · unfold Cache.Reads at reads ⊢
      rw [undisturbed.held]
      rcases undisturbed.pc with same | ⟨b, same⟩
      · rw [same]
        exact reads
      · rw [same]
        rcases reads with here | ⟨chan, here⟩ | ⟨c, here, holds⟩
        · rw [here]
          exact .inl rfl
        · rw [here, Pc.wakeup]
          split
          · exact .inl rfl
          · exact .inr (.inl ⟨chan, rfl⟩)
        · exact .inr (.inr ⟨c, Pc.wakeup_reading.mpr here, holds⟩)
    · have kept := sees.undisturbed undisturbed
      rcases undisturbed.pc with same | ⟨b, same⟩
      · rw [same]
        exact kept
      · rw [same, Pc.pending_wakeup]
        exact kept
  | read next v n b code out holds current sees expects =>
    have held : s.cache.held p b ≠ none := by
      rw [holds]
      exact Option.some_ne_none _
    refine .read next v n b (undisturbed.code.trans code) ?_ ?_ ?_
      (sees.undisturbed undisturbed) expects
    · rcases undisturbed.pc with same | ⟨c, same⟩
      · rw [same, out]
      · rw [same, Pc.wakeup_out, out]
    · rw [undisturbed.held, holds]
    · rw [undisturbed.buf b held, undisturbed.content n (.inr ⟨b, holds⟩), current]

theorem Sees.frame (sees : Sees prot s p skip v) {skip' : Option BufId}
    (held : ∀ b n, after.cache.held p b = some (1, n) ∧ skip' ≠ some b ↔
      s.cache.held p b = some (1, n) ∧ skip ≠ some b)
    (buf : ∀ b n, s.cache.held p b = some (1, n) ∧ skip ≠ some b →
      (after.cache.buf b).data = (s.cache.buf b).data)
    (content : after.content = s.content) : Sees prot after p skip' v := by
  refine ⟨?_, ?_, ?_⟩
  · intro b n
    rw [held]
    exact sees.which b n
  · intro b known
    obtain ⟨n, isSome⟩ := Option.ne_none_iff_exists'.mp known
    rw [buf b n ((sees.which b n).mp isSome)]
    exact sees.data b known
  · rw [content]
    exact sees.content

variable [DecidableEq Pid]

theorem advance_cases {action : Action Pid} (stepped : s.advance action = some after) :
    ∃ cache, step (memIderw FSSIZE) s.cache action = some cache ∧
      after = { s with cache := cache, content := s.cache.give s.content action } := by
  unfold Store.advance at stepped
  rw [Option.map_eq_some_iff] at stepped
  obtain ⟨cache, taken, rfl⟩ := stepped
  exact ⟨cache, taken, rfl⟩

theorem advance_frame {action : Action Pid} (stepped : s.advance action = some after) :
    after.arg = s.arg ∧ after.group = s.group := by
  obtain ⟨cache, taken, rfl⟩ := advance_cases stepped
  exact ⟨rfl, rfl⟩

theorem Sees.getBuf (sees : Sees prot s p none v) (idle : ∀ q, s.cache.held q b = none) (n : Nat)
    (buf : Buf) : Sees prot { s with cache := s.cache.getBuf p 1 n b buf } p (some b) v := by
  refine sees.frame ?_ ?_ rfl
  · intro c m
    by_cases same : c = b
    · subst same
      refine iff_of_false (fun both => both.2 rfl) ?_
      rw [idle p]
      exact fun both => nomatch both.1
    · dsimp only
      rw [getBuf_held_ne fun both => same both.2]
      refine and_congr_right fun _ => iff_of_true ?_ nofun
      exact fun clash => same (Option.some.inj clash).symm
  · rintro c m ⟨holds, -⟩
    dsimp only
    rw [getBuf_buf, update_of_ne]
    rintro rfl
    rw [idle p] at holds
    cases holds

omit [DecidableEq Pid] in
theorem Flat.free {content : Disk} {cache : Cache Pid Disk} (flat : Flat cache content)
    (idle : (cache.buf b).busy = false) (q : Pid) : cache.held q b = none := by
  by_contra holds
  exact flat.not_held idle holds rfl

theorem Moves.place {cache after : Cache Pid Disk} {action : Action Pid}
    (moves : Moves cache action after)
    (own : action = .bget p ∨ action = .rouse p ∨ action = .iderw p) :
    (∃ d m, cache.pc p = .bget d m) ∨ (∃ d m c, cache.pc p = .asleep d m c) ∨
      (∃ c, cache.pc p = .reading c) ∨ ∃ c, cache.pc p = .writing c := by
  cases moves with
  | sleep here =>
    rcases own with same | same | same <;> cases same
    exact .inl ⟨_, _, here⟩
  | rouse here =>
    rcases own with same | same | same <;> cases same
    exact .inr (.inl ⟨_, _, _, here⟩)
  | hit here =>
    rcases own with same | same | same <;> cases same
    exact .inl ⟨_, _, here⟩
  | miss here =>
    rcases own with same | same | same <;> cases same
    exact .inl ⟨_, _, here⟩
  | read here =>
    rcases own with same | same | same <;> cases same
    exact .inr (.inr (.inl ⟨_, here⟩))
  | write here =>
    rcases own with same | same | same <;> cases same
    exact .inr (.inr (.inr ⟨_, here⟩))
  | _ => rcases own with same | same | same <;> cases same

theorem Moves.not_out {cache after : Cache Pid Disk} {action : Action Pid}
    (moves : Moves cache action after)
    (own : action = .bget p ∨ action = .rouse p ∨ action = .iderw p) {result : Option BufId} :
    cache.pc p ≠ .out result := by
  intro out
  rcases moves.place own with ⟨d, m, here⟩ | ⟨d, m, c, here⟩ | ⟨c, here⟩ | ⟨c, here⟩ <;>
    rw [out] at here <;> cases here

/-- The process in `commit` comes back from a transfer to the disk. -/
theorem Follows.drive_run {rest : CommitM Unit} (code : s.code p = .run rest)
    (place : (∃ result, s.cache.pc p = .out result) ∨ ∃ b, s.cache.pc p = .writing b)
    (sees : Sees prot s p none v) (ready : Ready prot guar post rest v) {cache : Cache Pid Disk}
    {action : Action Pid} (own : action = .bget p ∨ action = .rouse p ∨ action = .iderw p)
    (moves : Moves s.cache action cache) : Follows prot guar post { s with cache := cache } p := by
  rcases place with ⟨result, out⟩ | ⟨b, here⟩
  · exact absurd out (moves.not_out own)
  · cases moves with
    | @write q c here' =>
      rcases own with same | same | same <;> cases same
      refine .run rest v code (.inl ⟨none, update_self _ _ _⟩) ?_ ready
      refine sees.frame (fun _ _ => Iff.rfl) ?_ rfl
      intro d n _
      dsimp only [Cache.setPc, Cache.setBuf]
      by_cases same : d = c
      · rw [same, update_self]
      · rw [update_of_ne same]
    | sleep here' =>
      rcases own with same | same | same <;> cases same
      rw [here] at here'
      cases here'
    | rouse here' =>
      rcases own with same | same | same <;> cases same
      rw [here] at here'
      cases here'
    | hit here' =>
      rcases own with same | same | same <;> cases same
      rw [here] at here'
      cases here'
    | miss here' =>
      rcases own with same | same | same <;> cases same
      rw [here] at here'
      cases here'
    | read here' =>
      rcases own with same | same | same <;> cases same
      rw [here] at here'
      cases here'
    | _ => rcases own with same | same | same <;> cases same

theorem Follows.drive_reads {next : BufId → CommitM Unit} {n : Nat}
    (code : s.code p = .reading next) (reads : s.cache.Reads p 1 n)
    (sees : Sees prot s p (s.cache.pc p).pending v)
    (expects : Expects prot guar post next v n) (flat : Flat s.cache s.content)
    {cache : Cache Pid Disk} {action : Action Pid}
    (own : action = .bget p ∨ action = .rouse p ∨ action = .iderw p)
    (taken : step (memIderw FSSIZE) s.cache action = some cache) :
    Follows prot guar post { s with cache := cache } p := by
  have moves := flat.step_cases taken
  cases moves with
  | @sleep q d m b here =>
    rcases own with same | same | same <;> cases same
    obtain ⟨rfl, rfl⟩ := reads.bget here
    rw [here] at sees
    have there : (s.cache.setPc p (.asleep 1 m b)).pc p = .asleep 1 m b := update_self _ _ _
    refine .reads next v m code (.inr (.inl ⟨b, there⟩)) ?_ expects
    dsimp only
    rw [there]
    exact sees.frame (fun _ _ => Iff.rfl) (fun _ _ _ => rfl) rfl
  | @rouse q d m b here =>
    rcases own with same | same | same <;> cases same
    have asked : d = 1 ∧ m = n := by
      unfold Cache.Reads at reads
      rw [here] at reads
      rcases reads with same | ⟨c, same⟩ | ⟨c, same, -⟩ <;> cases same
      exact ⟨rfl, rfl⟩
    obtain ⟨rfl, rfl⟩ := asked
    rw [here] at sees
    have there : (s.cache.setPc p (.bget 1 m)).pc p = .bget 1 m := update_self _ _ _
    refine .reads next v m code (.inl there) ?_ expects
    dsimp only
    rw [there]
    exact sees.frame (fun _ _ => Iff.rfl) (fun _ _ _ => rfl) rfl
  | @hit q d m b here isDev isBlock idle =>
    rcases own with same | same | same <;> cases same
    obtain ⟨rfl, rfl⟩ := reads.bget here
    rw [here] at sees
    have skips := sees.getBuf (flat.free idle) m { s.cache.buf b with busy := true }
    have moved : (s.cache.getBuf p 1 m b { s.cache.buf b with busy := true }).pc p =
        if (s.cache.buf b).valid then .out (some b) else .reading b := update_self _ _ _
    cases valid : (s.cache.buf b).valid with
    | true =>
      rw [valid, if_pos rfl] at moved
      refine .read next v m b code moved getBuf_held_self ?_ skips expects
      dsimp only
      rw [getBuf_buf, update_self, ← isBlock]
      exact flat.idle b idle valid
    | false =>
      rw [valid, if_neg nofun] at moved
      refine .reads next v m code (.inr (.inr ⟨b, moved, getBuf_held_self⟩)) ?_ expects
      dsimp only
      rw [moved]
      exact skips
  | @miss q d m b here idle clean =>
    rcases own with same | same | same <;> cases same
    obtain ⟨rfl, rfl⟩ := reads.bget here
    rw [here] at sees
    have skips := sees.getBuf (flat.free idle) m ⟨true, false, false, 1, m, (s.cache.buf b).data⟩
    have moved : (s.cache.getBuf p 1 m b ⟨true, false, false, 1, m, (s.cache.buf b).data⟩).pc p =
        .reading b := update_self _ _ _
    refine .reads next v m code (.inr (.inr ⟨b, moved, getBuf_held_self⟩)) ?_ expects
    dsimp only
    rw [moved]
    exact skips
  | @read q b here isDev inside =>
    rcases own with same | same | same <;> cases same
    have holds := reads.reading here
    rw [here] at sees
    refine .read next v n b code (update_self _ _ _) holds ?_ ?_ expects
    · dsimp only [Cache.setPc, Cache.setBuf]
      rw [update_self, ← (flat.intact.asked p b 1 n holds).2]
      exact flat.current isDev (flat.unstained here)
    · refine sees.frame (fun _ _ => Iff.rfl) ?_ rfl
      rintro c m ⟨-, skipped⟩
      dsimp only [Cache.setPc, Cache.setBuf]
      rw [update_of_ne]
      rintro rfl
      exact skipped rfl
  | @write q b here =>
    rcases own with same | same | same <;> cases same
    exact absurd here (reads.not_writing b)
  | _ => rcases own with same | same | same <;> cases same

theorem Follows.drive (follows : Follows prot guar post s p) (flat : Flat s.cache s.content)
    {action : Action Pid} (own : action = .bget p ∨ action = .rouse p ∨ action = .iderw p)
    (stepped : s.advance action = some after) : Follows prot guar post after p := by
  obtain ⟨cache, taken, rfl⟩ := advance_cases stepped
  have unchanged : s.cache.give s.content action = s.content := by
    rcases own with rfl | rfl | rfl <;> rfl
  rw [unchanged]
  cases follows with
  | run rest v code place sees ready =>
    exact drive_run code place sees ready own (flat.step_cases taken)
  | reads next v n code reads sees expects =>
    exact drive_reads code reads sees expects flat own taken
  | read next v n b code out holds current sees expects =>
    exact absurd out ((flat.step_cases taken).not_out own)

/-! ## The steps of `commit` -/

theorem note_cases {log : Log} {act : LogAct Pid} (stepped : s.note log act = some after) :
    ∃ group, s.group.step log act = some group ∧ after = { s with group := group } := by
  unfold Store.note at stepped
  rw [Option.map_eq_some_iff] at stepped
  obtain ⟨group, taken, rfl⟩ := stepped
  exact ⟨group, taken, rfl⟩

omit [DecidableEq Pid] in
theorem Sees.uses (sees : Sees prot s p none v) (flat : Flat s.cache s.content) {n : Nat}
    (known : v.which b = some n) :
    s.cache.held p b = some (1, n) ∧ (s.cache.buf b).blockno = n ∧ v.data b = (s.cache.buf b).data ∧
      v.content n = s.content n := by
  have holds := ((sees.which b n).mp known).1
  refine ⟨holds, (flat.intact.asked p b 1 n holds).2, ?_, sees.content n (.inr ⟨b, known⟩)⟩
  exact sees.data b (by rw [known]; exact Option.some_ne_none _)

theorem Follows.returned {next : BufId → CommitM Unit} {n : Nat}
    (holds : s.cache.held p b = some (1, n)) (out : s.cache.pc p = .out (some b))
    (current : (s.cache.buf b).data = s.content n)
    (sees : Sees prot s p (some b) v) (expects : Expects prot guar post next v n) :
    Follows prot guar post (s.setCode p (.run (next b))) p := by
  have fresh : v.which b = none := by
    by_contra known
    obtain ⟨m, isSome⟩ := Option.ne_none_iff_exists'.mp known
    exact ((sees.which b m).mp isSome).2 rfl
  refine .run (next b) (v.take b n (s.cache.buf b).data) (update_self _ _ _) (.inl ⟨_, out⟩) ?_
    (expects b _ fresh fun isProt => by rw [sees.content n (.inl isProt), current])
  refine ⟨?_, ?_, ?_⟩
  · intro c m
    dsimp only [View.take, Store.setCode]
    by_cases same : c = b
    · subst same
      rw [update_self, holds]
      simp
    · rw [update_of_ne same, sees.which c m]
      refine and_congr_right fun _ => iff_of_true ?_ nofun
      exact fun clash => same (Option.some.inj clash).symm
  · intro c known
    dsimp only [View.take, Store.setCode] at known ⊢
    by_cases same : c = b
    · rw [same, update_self]
    · rw [update_of_ne same] at known ⊢
      exact sees.data c known
  · intro m known
    dsimp only [View.take, Store.setCode] at known ⊢
    by_cases same : m = n
    · rw [same, update_self, current]
    · rw [update_of_ne same]
      refine sees.content m (known.imp id ?_)
      rintro ⟨c, isSome⟩
      refine ⟨c, ?_⟩
      rw [update_of_ne] at isSome
      · exact isSome
      · rintro rfl
        rw [update_self] at isSome
        exact same (Option.some.inj isSome).symm

theorem Follows.bread {n : Nat} {next : BufId → CommitM Unit} (sees : Sees prot s p none v)
    (ready : Ready prot guar post (.call (.bread n) next) v) (flat : Flat s.cache s.content)
    (stepped : s.advance (.bread p 1 n) = some after) :
    Follows prot guar post (after.setCode p (.reading next)) p := by
  obtain ⟨cache, taken, rfl⟩ := advance_cases stepped
  cases flat.step_cases taken with
  | call out =>
    have there : (s.cache.setPc p (.bget 1 n)).pc p = .bget 1 n := update_self _ _ _
    refine .reads next v n (update_self _ _ _) (.inl there) ?_ ready
    dsimp only [Store.setCode]
    rw [there]
    exact sees.frame (fun _ _ => Iff.rfl) (fun _ _ _ => rfl) rfl

theorem Follows.store {data : Block} {next : Unit → CommitM Unit} (sees : Sees prot s p none v)
    (ready : Ready prot guar post (.call (.store b data) next) v) (flat : Flat s.cache s.content)
    (stepped : s.advance (.modify p b data) = some after) :
    Follows prot guar post (after.setCode p (.run (next ()))) p := by
  obtain ⟨cache, taken, rfl⟩ := advance_cases stepped
  cases flat.step_cases taken with
  | modify uses =>
    refine .run (next ()) { v with data := update v.data b data } (update_self _ _ _)
      (.inl uses.1) ?_ ready.2
    refine ⟨sees.which, ?_, sees.content⟩
    intro c known
    dsimp only [Cache.setBuf, Store.setCode]
    by_cases same : c = b
    · rw [same, update_self, update_self]
    · rw [update_of_ne same, update_of_ne same]
      exact sees.data c known

theorem Follows.bwrite {next : Unit → CommitM Unit} (sees : Sees prot s p none v)
    (ready : Ready prot guar post (.call (.bwrite b) next) v) (flat : Flat s.cache s.content)
    (stepped : s.advance (.bwrite p b) = some after) :
    Follows prot guar post (after.setCode p (.run (next ()))) p ∧
      ∃ known : Disk, guar (s.cache.buf b).blockno (s.cache.buf b).data known ∧
        known (s.cache.buf b).blockno = s.content (s.cache.buf b).blockno := by
  obtain ⟨cache, taken, rfl⟩ := advance_cases stepped
  obtain ⟨n, known, asked, ready⟩ := ready
  obtain ⟨holds, isBlock, sameData, sameContent⟩ := sees.uses flat known
  rw [sameData] at asked ready
  refine ⟨?_, v.content, by rw [isBlock]; exact asked, by rw [isBlock]; exact sameContent⟩
  cases flat.step_cases taken with
  | bwrite uses =>
    refine .run (next ()) _ (update_self _ _ _) (.inr ⟨b, update_self _ _ _⟩) ?_ ready
    refine ⟨sees.which, ?_, ?_⟩
    · intro c isKnown
      dsimp only [Cache.setBuf, Cache.setPc, Store.setCode]
      by_cases same : c = b
      · rw [same, update_self]
        exact sameData
      · rw [update_of_ne same]
        exact sees.data c isKnown
    · intro m isKnown
      dsimp only [Store.setCode, Cache.give]
      rw [isBlock]
      by_cases same : m = n
      · rw [same, update_self, update_self]
      · rw [update_of_ne same, update_of_ne same]
        exact sees.content m isKnown

theorem Follows.brelse {next : Unit → CommitM Unit} (sees : Sees prot s p none v)
    (ready : Ready prot guar post (.call (.brelse b) next) v) (flat : Flat s.cache s.content)
    (stepped : s.advance (.brelse p b) = some after) :
    Follows prot guar post (after.setCode p (.run (next ()))) p ∧
      (s.cache.buf b).data = s.content (s.cache.buf b).blockno := by
  obtain ⟨cache, taken, rfl⟩ := advance_cases stepped
  obtain ⟨n, known, asked, ready⟩ := ready
  obtain ⟨holds, isBlock, sameData, sameContent⟩ := sees.uses flat known
  refine ⟨?_, by rw [isBlock, ← sameData, asked, sameContent]⟩
  cases flat.step_cases taken with
  | brelse uses =>
    obtain ⟨result, out⟩ := uses.1
    refine .run (next ()) _ (update_self _ _ _) (.inl ⟨result, ?_⟩) ?_ ready
    · exact Pc.wakeup_out.mpr out
    refine ⟨?_, ?_, ?_⟩
    · intro c m
      dsimp only [Store.setCode]
      rw [update_held]
      by_cases same : c = b
      · rw [same, update_self, if_pos ⟨rfl, rfl⟩]
        exact iff_of_false nofun fun both => nomatch both.1
      · rw [update_of_ne same, if_neg fun both => same both.2]
        exact sees.which c m
    · intro c isKnown
      dsimp only [Store.setCode, Cache.setBuf] at isKnown ⊢
      have other : c ≠ b := by
        rintro rfl
        rw [update_self] at isKnown
        exact isKnown rfl
      rw [update_of_ne other] at isKnown ⊢
      exact sees.data c isKnown
    · intro m isKnown
      refine sees.content m (isKnown.imp id ?_)
      rintro ⟨c, isSome⟩
      refine ⟨c, ?_⟩
      dsimp only at isSome
      rw [update_of_ne] at isSome
      · exact isSome
      · rintro rfl
        rw [update_self] at isSome
        cases isSome

end Follow

end Xv6.Bio
