import Xv6.Fs.Path
import Xv6.Sys.Directory

/-!
# Looking up paths

`namex` takes and drops references to the inodes on its way and locks one at a time.  In a
state in which no directory has a dangling entry none of this frees an inode, so every state
it passes through has the same files; `Visited` records how its cache differs.
-/

namespace Xv6

open Exec Fs SlotMap

/-- An inode that is there to stay: it has a link, or somebody uses it. -/
def Fs.Standing (fs : Fs) (i : Nat) : Prop :=
  i < fs.sb.ninodes ∧ (fs.cur i).type ≠ 0 ∧ ((fs.cur i).nlink ≠ 0 ∨ fs.Used i)

instance (fs : Fs) (i : Nat) : Decidable (fs.Standing i) := inferInstanceAs (Decidable (_ ∧ _ ∧ _))

/-- A state on the way of `namex` from `start`: `count` references more are held, and at
most one inode is locked. -/
structure Visited (start fs : Fs) (count : Slot → Int) (locked : Option Slot) : Prop where
  sound : fs.Sound
  settled : fs.Settled
  disk : fs.disk = start.disk
  sb : fs.sb = start.sb
  logged : fs.logged = start.logged
  nonneg : ∀ jp, 0 ≤ count jp
  ref : ∀ jp, (fs.icache jp).ref = (start.icache jp).ref + count jp
  kept : ∀ jp, 0 < (start.icache jp).ref → (fs.icache jp).inum = (start.icache jp).inum
  busy : ∀ jp, 0 < (fs.icache jp).ref → ((fs.icache jp).busy = true ↔ locked = some jp)
  held : ∀ jp, locked = some jp → 0 < (fs.icache jp).ref

section Visited

variable {start fs after : Fs} {count : Slot → Int} {locked : Option Slot} {ip : Slot} {i j : Nat}

theorem Visited.refl (sound : start.Sound) (settled : start.Settled)
    (idle : ∀ ip, 0 < (start.icache ip).ref → (start.icache ip).busy = false) :
    Visited start start 0 none :=
  ⟨sound, settled, rfl, rfl, rfl, fun _ => le_rfl, fun _ => (add_zero _).symm, fun _ _ => rfl,
    fun jp positive => by simp [idle jp positive], by simp⟩

theorem Visited.setSlot (visited : Visited start fs count locked) {inode : Inode}
    {count' : Slot → Int} {locked' : Option Slot} (settable : Settable fs ip inode i)
    (settled : 0 < inode.ref → inode.valid = true → inode.copy.type ≠ 0)
    (ref : inode.ref = (start.icache ip).ref + count' ip) (nonneg : 0 ≤ count' ip)
    (counts : ∀ jp, jp ≠ ip → count' jp = count jp)
    (kept : 0 < (start.icache ip).ref → inode.inum = (start.icache ip).inum)
    (busy : 0 < inode.ref → (inode.busy = true ↔ locked' = some ip))
    (held : locked' = some ip → 0 < inode.ref)
    (locks : ∀ jp, jp ≠ ip → (locked' = some jp ↔ locked = some jp)) :
    Visited start (fs.setSlot ip inode) count' locked' := by
  refine ⟨visited.sound.setSlot settable, visited.settled.setSlot settled, visited.disk, visited.sb,
    visited.logged, fun jp => ?_, fun jp => ?_, fun jp => ?_, fun jp => ?_, fun jp => ?_⟩
  · by_cases here : jp = ip
    · exact here ▸ nonneg
    · rw [counts jp here]
      exact visited.nonneg jp
  · by_cases here : jp = ip
    · subst here
      rw [setSlot_icache_self, ref]
    · rw [setSlot_icache_ne _ here, counts jp here]
      exact visited.ref jp
  · by_cases here : jp = ip
    · subst here
      rw [setSlot_icache_self]
      exact kept
    · rw [setSlot_icache_ne _ here]
      exact visited.kept jp
  · by_cases here : jp = ip
    · subst here
      rw [setSlot_icache_self]
      exact busy
    · rw [setSlot_icache_ne _ here, locks jp here]
      exact visited.busy jp
  · by_cases here : jp = ip
    · subst here
      rw [setSlot_icache_self]
      exact held
    · rw [setSlot_icache_ne _ here, locks jp here]
      exact visited.held jp

theorem skipelem_take {path name rest : List UInt8} (next : skipelem path = some (name, rest)) :
    name.take DIRSIZ = name := by
  unfold skipelem at next
  split at next
  · cases next
  · obtain ⟨rfl, -⟩ := Prod.mk.inj (Option.some.inj next)
    rw [List.take_take, min_self]

theorem inum_setSlot {inode : Inode} (same : inode.inum = (fs.icache ip).inum) (jp : Slot) :
    ((fs.setSlot ip inode).icache jp).inum = (fs.icache jp).inum := by
  by_cases here : jp = ip
  · subst here
    rw [setSlot_icache_self, same]
  · rw [setSlot_icache_ne _ here]

theorem Fs.Got.kept (got : Got fs j ip after) {jp : Slot} (referenced : 0 < (fs.icache jp).ref) :
    (after.icache jp).inum = (fs.icache jp).inum := by
  cases got with
  | hit _ _ =>
    by_cases here : jp = ip
    · subst here
      rw [setSlot_icache_self]
    · rw [setSlot_icache_ne _ here]
  | miss unused absent =>
    have other : jp ≠ ip := by
      rintro rfl
      omega
    rw [setSlot_icache_ne _ other]

theorem Visited.got (visited : Visited start fs count locked) (inside : j < start.sb.ninodes)
    (got : Got fs j ip after) : Visited start after (count + Pi.single ip 1) locked := by
  have ref := visited.ref ip
  have nonneg := visited.nonneg ip
  have here : (count + Pi.single ip 1 : Slot → Int) ip = count ip + 1 := by simp
  have others : ∀ jp, jp ≠ ip → (count + Pi.single ip 1 : Slot → Int) jp = count jp := by
    intro jp other
    simp [other]
  rw [← visited.sb] at inside
  cases got with
  | hit referenced number =>
    subst number
    exact visited.setSlot (visited.sound.retag referenced _ _)
      (fun _ => visited.settled ip referenced) (by rw [here]; dsimp only; omega) (by omega) others
      (visited.kept ip) (fun _ => visited.busy ip referenced) (fun _ => by dsimp only; omega)
      fun _ _ => Iff.rfl
  | miss unused absent =>
    have free : locked ≠ some ip := by
      intro isLocked
      have := visited.held ip isLocked
      omega
    exact visited.setSlot (Settable.recycle unused inside absent)
      (fun _ valid => by cases valid) (by rw [here]; dsimp only; omega) (by omega) others
      (fun positive => by omega) (fun _ => by simp [free]) (fun isLocked => absurd isLocked free)
      fun _ _ => Iff.rfl

theorem Visited.idup (visited : Visited start fs count locked)
    (referenced : 0 < (start.icache ip).ref) :
    (idup ip).Ensures fs
      (fun result after => result = ip ∧ Visited start after (count + Pi.single ip 1) locked)
      (fun _ => False) := by
  have positive : 0 < (fs.icache ip).ref := by
    have := visited.ref ip
    have := visited.nonneg ip
    omega
  have inside : (fs.icache ip).inum < start.sb.ninodes := by
    rw [← visited.sb]
    exact visited.sound.inums ip positive
  unfold Xv6.idup
  simp only [ensures_bind, ensures_getInode, ensures_setInode, ensures_pure]
  exact ⟨trivial, visited.got inside (.hit positive rfl)⟩

theorem Visited.ilock (visited : Visited start fs count none) (referenced : 0 < (fs.icache ip).ref)
    (type : (fs.cur (fs.icache ip).inum).type ≠ 0) :
    (Xv6.ilock ip).Ensures fs
      (fun _ after => Visited start after count (some ip) ∧ after.Live ip ∧
        ∀ jp, (after.icache jp).inum = (fs.icache jp).inum)
      (fun _ => False) := by
  have idle : (fs.icache ip).busy = false := by
    rw [Bool.eq_false_iff]
    intro busy
    have := (visited.busy ip referenced).mp busy
    cases this
  refine (ilock_returns visited.sound.toOwned visited.settled referenced idle type).mono ?_
    fun _ never => never
  rintro - after rfl
  refine ⟨visited.setSlot (visited.sound.settable_locked referenced) (fun _ _ => type)
    (visited.ref ip) (visited.nonneg ip) (fun _ _ => rfl) (visited.kept ip)
    (fun _ => by simp [lockedEntry]) (fun _ => referenced)
    (fun jp other => by simp [Ne.symm other]), live_locked referenced type, inum_setSlot rfl⟩

theorem Visited.iunlock (visited : Visited start fs count (some ip)) :
    (Xv6.iunlock ip).Ensures fs
      (fun _ after => Visited start after count none ∧
        ∀ jp, (after.icache jp).inum = (fs.icache jp).inum)
      (fun _ => False) := by
  have referenced := visited.held ip rfl
  have busy : (fs.icache ip).busy = true := (visited.busy ip referenced).mpr rfl
  unfold Xv6.iunlock
  simp only [ensures_bind, ensures_getInode]
  rw [if_neg (by simp [busy]; omega)]
  refine ⟨visited.setSlot (visited.sound.retag referenced _ _)
    (fun _ => visited.settled ip referenced) (visited.ref ip) (visited.nonneg ip) (fun _ _ => rfl)
    (visited.kept ip) (fun _ => by simp) (by simp) (fun jp other => by simp [Ne.symm other]),
    inum_setSlot rfl⟩

variable (sound₀ : start.Sound)

include sound₀ in
theorem Visited.cur (visited : Visited start fs count locked) (i : Nat) :
    fs.cur i = start.cur i := by
  rw [visited.sound.cur_eq, sound₀.cur_eq, dinode, dinode, visited.sb, visited.disk]

include sound₀ in
theorem Visited.iputTest (visited : Visited start fs count none) (held : 1 ≤ count ip)
    (nonneg : 0 ≤ (start.icache ip).ref) (standing : start.Standing (fs.icache ip).inum) :
    (iputTest ip).Ensures fs
      (fun free after => free = false ∧ Visited start after (count - Pi.single ip 1) none ∧
        ∀ jp, (after.icache jp).inum = (fs.icache jp).inum)
      (fun _ => False) := by
  have ref := visited.ref ip
  have referenced : 0 < (fs.icache ip).ref := by omega
  have stays : ¬((fs.icache ip).ref = 1 ∧ (fs.icache ip).valid = true ∧
      (fs.icache ip).copy.nlink = 0) := by
    rintro ⟨last, valid, unlinked⟩
    have live : fs.Live ip := ⟨referenced, valid, visited.settled ip referenced valid⟩
    have current := cur_of_live visited.sound.unique live
    rw [visited.cur sound₀] at current
    rcases standing.2.2 with linked | ⟨jp, inUse, number⟩
    · rw [current] at linked
      exact linked unlinked
    · -- whoever used the inode before has the same entry
      have same : jp = ip := by
        refine visited.sound.unique jp ip ?_ referenced ((visited.kept jp inUse).trans number)
        have := visited.ref jp
        have := visited.nonneg jp
        omega
      subst same
      omega
  unfold Xv6.iputTest
  simp only [ensures_bind, ensures_getInode]
  rw [if_neg stays]
  have here : (count - Pi.single ip 1 : Slot → Int) ip = count ip - 1 := by simp
  refine ⟨rfl, visited.setSlot (visited.sound.retag referenced _ _)
    (fun _ => visited.settled ip referenced) (by rw [here]; dsimp only; omega) (by omega)
    (fun jp other => by simp [other]) (visited.kept ip) (fun _ => visited.busy ip referenced)
    (by simp) (fun jp other => Iff.rfl), inum_setSlot rfl⟩

include sound₀ in
theorem Visited.byte (visited : Visited start fs count locked) (i k : Nat) :
    fs.byte i k = start.byte i k :=
  byte_congr (addr_congr visited.sb (visited.cur sound₀ i) (fun _ => by rw [visited.disk]) _)
    fun _ => by rw [visited.disk]

include sound₀ in
theorem Visited.names (visited : Visited start fs count locked) (i : Nat) :
    fs.names i = start.names i := by
  unfold Fs.names Fs.entry
  simp only [visited.cur sound₀, visited.byte sound₀]

theorem table_eq_names (sound : fs.Sound) (live : fs.Live ip) :
    fs.table ip = fs.names (fs.icache ip).inum := by
  have byte : ∀ i k, (fs.alone ip).byte i k = fs.byte i k := fun i k =>
    byte_congr (sound.alone_addr ip i _) fun _ => rfl
  unfold Fs.table Fs.dirent Fs.names Fs.entry
  simp only [byte, cur_of_live sound.unique live]

end Visited

/-! ## Room in the cache -/

section Room

variable {start fs after : Fs} {locked : Option Slot} {ip next : Slot} {i j : Nat}
  (nonneg : ∀ ip, 0 ≤ (start.icache ip).ref)
  (visited : Visited start fs (Pi.single ip 1) locked) (number : (fs.icache ip).inum = i)

include visited in
theorem Visited.ref_self : (fs.icache ip).ref = (start.icache ip).ref + 1 := by
  have ref := visited.ref ip
  rwa [Pi.single_eq_same] at ref

include visited in
theorem Visited.ref_other {jp : Slot} (other : jp ≠ ip) :
    (fs.icache jp).ref = (start.icache jp).ref := by
  have ref := visited.ref jp
  rwa [Pi.single_eq_of_ne other, add_zero] at ref

include nonneg visited number

theorem Visited.used_iff : start.Used i ↔ 0 < (start.icache ip).ref := by
  have self := visited.ref_self
  constructor
  · rintro ⟨jp, inUse, isNumber⟩
    by_contra unused
    have other : jp ≠ ip := by
      rintro rfl
      exact unused inUse
    refine other (visited.sound.unique jp ip ?_ ?_ ?_)
    · rwa [visited.ref_other other]
    · have := nonneg ip
      omega
    · rw [visited.kept jp inUse, isNumber, number]
  · intro inUse
    exact ⟨ip, inUse, (visited.kept ip inUse).symm.trans number⟩

theorem Visited.cached_iff :
    (∃ jp, 0 < (fs.icache jp).ref ∧ (fs.icache jp).inum = j) ↔ start.Used j ∨ j = i := by
  have self := visited.ref_self
  have := nonneg ip
  constructor
  · rintro ⟨jp, inUse, isNumber⟩
    by_cases here : jp = ip
    · subst here
      exact .inr (isNumber.symm.trans number)
    · rw [visited.ref_other here] at inUse
      exact .inl ⟨jp, inUse, (visited.kept jp inUse).symm.trans isNumber⟩
  · rintro (⟨jp, inUse, isNumber⟩ | rfl)
    · have := visited.ref jp
      have := visited.nonneg jp
      exact ⟨jp, by omega, (visited.kept jp inUse).trans isNumber⟩
    · exact ⟨ip, by omega, number⟩

theorem Visited.free_iff :
    (∃ jp, (fs.icache jp).ref = 0) ↔ (if start.Used i then 1 else 2) ≤ start.unused.card := by
  have self := visited.ref_self
  have nonneg' := nonneg ip
  have others : (∃ jp, (fs.icache jp).ref = 0) ↔ (start.unused.erase ip).Nonempty := by
    constructor
    · rintro ⟨jp, free⟩
      have other : jp ≠ ip := by
        rintro rfl
        omega
      rw [visited.ref_other other] at free
      exact ⟨jp, Finset.mem_erase.mpr ⟨other, Finset.mem_filter.mpr ⟨Finset.mem_univ _, free⟩⟩⟩
    · rintro ⟨jp, member⟩
      obtain ⟨other, free⟩ := Finset.mem_erase.mp member
      exact ⟨jp, (visited.ref_other other).trans (Finset.mem_filter.mp free).2⟩
  have used := visited.used_iff nonneg number
  rw [others, ← Finset.card_pos]
  by_cases inUse : 0 < (start.icache ip).ref
  · have absent : ip ∉ start.unused := by
      intro member
      have := (Finset.mem_filter.mp member).2
      omega
    rw [if_pos (used.mpr inUse), Finset.erase_eq_of_notMem absent]
    exact Iff.rfl
  · have member : ip ∈ start.unused :=
      Finset.mem_filter.mpr ⟨Finset.mem_univ _, by omega⟩
    rw [if_neg (mt used.mp inUse), Finset.card_erase_of_mem member]
    omega

theorem Visited.canGet_iff : start.CanGet i j ↔
    (∃ jp, 0 < (fs.icache jp).ref ∧ (fs.icache jp).inum = j) ∨ ∃ jp, (fs.icache jp).ref = 0 := by
  rw [visited.cached_iff nonneg number, visited.free_iff nonneg number, or_assoc]
  exact Iff.rfl

theorem Visited.canGet (got : Got fs j next after) : start.CanGet i j := by
  rw [visited.canGet_iff nonneg number]
  cases got with
  | hit referenced isNumber => exact .inl ⟨next, referenced, isNumber⟩
  | miss unused absent => exact .inr ⟨next, unused⟩

theorem Visited.not_canGet (full : fs.CacheFull j) : ¬start.CanGet i j := by
  rw [visited.canGet_iff nonneg number]
  rintro (⟨jp, referenced, isNumber⟩ | ⟨jp, free⟩)
  · exact full.2 jp referenced isNumber
  · exact full.1 jp free

end Room

/-! ## The loop -/

/-- A state at rest, without dangling entries: the inodes that are there to stay include the
root and whatever their directories list. -/
structure Fs.Resting (fs : Fs) : Prop where
  sound : fs.Sound
  settled : fs.Settled
  nonneg : ∀ ip, 0 ≤ (fs.icache ip).ref
  idle : ∀ ip, 0 < (fs.icache ip).ref → (fs.icache ip).busy = false
  aligned : ∀ i, fs.Standing i → (fs.cur i).type = T_DIR → DESIZE ∣ (fs.cur i).size
  entries : ∀ i, fs.Standing i → (fs.cur i).type = T_DIR → ∀ name j,
    some (name, j) ∈ fs.names i → fs.Standing j
  root : fs.Standing ROOTINO

namespace Sys

section Loop

variable {Pid : Type} [DecidableEq Pid] (devsw : Devsw) (p : Pid) {k : Kernel Pid} {start : Fs}
  {ip : Slot} {count : Slot → Int} (resting : start.Resting)

/-- What `namex` returns, and in which state. -/
def Resolved (start : Fs) (answer : Option (Nat × List UInt8)) :
    Option (Slot × List UInt8) → Fs → Prop
  | none, fs => answer = none ∧ Visited start fs 0 none
  | some (ip, name), fs => answer = some ((fs.icache ip).inum, name) ∧
      Visited start fs (Pi.single ip 1) none

include resting

theorem iput_spec (visited : Visited start k.fs count none) (held : 1 ≤ count ip)
    (standing : start.Standing (k.fs.icache ip).inum) :
    (alone devsw p (iput ip)).Ensures k
      (fun _ after => Visited start after.fs (count - Pi.single ip 1) none ∧
        ∀ jp, (after.fs.icache jp).inum = (k.fs.icache jp).inum)
      (fun _ => False) := by
  unfold iput
  simp only [call, Prog.op_bind, Prog.ensures_call, Op.exec, ensures_onFs]
  refine (visited.iputTest resting.sound held (resting.nonneg ip) standing).mono ?_
    fun _ never => never
  rintro free fs ⟨rfl, visited', same⟩
  exact ⟨visited', same⟩

theorem iunlockput_spec (visited : Visited start k.fs count (some ip)) (held : 1 ≤ count ip)
    (standing : start.Standing (k.fs.icache ip).inum) :
    (alone devsw p (iunlockput ip)).Ensures k
      (fun _ after => Visited start after.fs (count - Pi.single ip 1) none ∧
        ∀ jp, (after.fs.icache jp).inum = (k.fs.icache jp).inum)
      (fun _ => False) := by
  unfold iunlockput iunlock
  simp only [call, Prog.op_bind, Prog.ensures_call, Op.exec, ensures_onFs]
  refine visited.iunlock.mono ?_ fun _ never => never
  rintro - fs ⟨visited', same⟩
  have dropped := iput_spec devsw p (k := { k with fs := fs }) resting visited' held
    (by rw [same]; exact standing)
  refine dropped.mono ?_ fun _ never => never
  rintro - after ⟨visited'', same'⟩
  exact ⟨visited'', fun jp => (same' jp).trans (same jp)⟩

theorem namexLoop_spec (parent : Bool) (fuel : Nat) {path : List UInt8} (last : List UInt8)
    (enough : path.length < fuel) (visited : Visited start k.fs (Pi.single ip 1) none)
    (standing : start.Standing (k.fs.icache ip).inum) :
    (alone devsw p (namexLoop parent fuel path last ip)).Ensures k
      (fun result after =>
        Resolved start (start.resolve parent (k.fs.icache ip).inum last (components path)) result
          after.fs ∧ start.Reach parent (k.fs.icache ip).inum (components path))
      (fun _ => ¬start.Reach parent (k.fs.icache ip).inum (components path)) := by
  induction fuel generalizing path last ip k with
  | zero => exact absurd enough (Nat.not_lt_zero _)
  | succ fuel ih =>
    have self := visited.ref_self
    have referenced : 0 < (k.fs.icache ip).ref := by
      have := resting.nonneg ip
      omega
    have held : (1 : Int) ≤ (Pi.single ip 1 : Slot → Int) ip := by simp
    have none : (Pi.single ip 1 - Pi.single ip 1 : Slot → Int) = 0 := sub_self _
    unfold namexLoop
    cases skipped : skipelem path with
    | none =>
      rw [components_eq_nil_of_skipelem skipped]
      dsimp only
      cases parent with
      | false => exact ⟨⟨rfl, visited⟩, trivial⟩
      | true =>
        rw [if_pos rfl, Prog.ensures_exec_bind]
        refine (iput_spec devsw p resting visited held standing).mono ?_ fun _ never => never.elim
        rintro - after ⟨visited', -⟩
        rw [none] at visited'
        exact ⟨⟨rfl, visited'⟩, trivial⟩
    | some element =>
      obtain ⟨name, rest⟩ := element
      obtain ⟨isCons, isLast⟩ := components_of_skipelem skipped
      have shorter := skipelem_length skipped
      have type : (k.fs.cur (k.fs.icache ip).inum).type ≠ 0 := by
        rw [visited.cur resting.sound]
        exact standing.2.1
      rw [isCons]
      dsimp only
      rw [Prog.ensures_exec_bind, ensures_ilock]
      refine (visited.ilock referenced type).mono ?_ fun _ never => never.elim
      rintro - fs ⟨visited', live, same⟩
      have number := same ip
      have copy : (fs.icache ip).copy = start.cur (k.fs.icache ip).inum := by
        rw [← cur_of_live visited'.sound.unique live, visited'.cur resting.sound, number]
      have standing' : start.Standing (fs.icache ip).inum := by rwa [number]
      simp only [call, Prog.op_bind, Prog.ensures_call, Op.exec, ensures_onFs, stati,
        ensures_bind, ensures_getInode, ensures_pure]
      rw [copy]
      by_cases isDir : (start.cur (k.fs.icache ip).inum).type = T_DIR
      · rw [if_neg (not_not.mpr isDir)]
        by_cases stops : parent = true ∧ rest = []
        · rw [if_pos stops]
          simp only [iunlock, call, Prog.op_bind, Prog.ensures_call, Op.exec, ensures_onFs]
          refine visited'.iunlock.mono ?_ fun _ never => never.elim
          rintro - last ⟨visited'', same'⟩
          have ends : parent = true ∧ components rest = [] := ⟨stops.1, isLast.mp stops.2⟩
          refine ⟨⟨?_, visited''⟩, fun goesOn => absurd ends goesOn⟩
          rw [Fs.resolve, if_neg (not_not.mpr isDir), if_pos ends, same', number]
        · rw [if_neg stops, Prog.ensures_exec_bind]
          have names : fs.table ip = start.names (k.fs.icache ip).inum := by
            rw [table_eq_names visited'.sound live, visited'.names resting.sound, number]
          have dir : fs.DirAt ip := ⟨visited'.sound.alone ip, live, by rw [copy]; exact isDir,
            by rw [copy]; exact resting.aligned _ standing isDir⟩
          have goesOn : ¬(parent = true ∧ components rest = []) :=
            fun ends => stops ⟨ends.1, isLast.mpr ends.2⟩
          have child : start.child (k.fs.icache ip).inum name =
              lookup (start.names (k.fs.icache ip).inum) name := if_pos isDir
          have resolve : start.resolve parent (k.fs.icache ip).inum last (name :: components rest) =
              (lookup (start.names (k.fs.icache ip).inum) name).bind
                fun j => start.resolve parent j name (components rest) := by
            rw [Fs.resolve, if_neg (not_not.mpr isDir), if_neg goesOn]
          have looked := dirlookup_spec devsw p (k := { k with fs := fs }) name dir
          dsimp only at looked
          rw [names, skipelem_take skipped] at looked
          refine looked.mono (fun result after facts => ?_) ?_
          · cases result with
            | none =>
              obtain ⟨absent, rfl⟩ := facts
              dsimp only
              rw [Prog.ensures_exec_bind]
              refine (iunlockput_spec devsw p (k := { k with fs := fs }) resting visited' held
                standing').mono ?_ fun _ never => never.elim
              rintro - after ⟨visited'', -⟩
              rw [none] at visited''
              refine ⟨⟨by rw [resolve, absent]; rfl, visited''⟩, fun _ j found => ?_⟩
              rw [child, absent] at found
              cases found
            | some found =>
              obtain ⟨next, off⟩ := found
              obtain ⟨j, m, -, bound, listed, fs', got, rfl⟩ := facts
              have standingNext : start.Standing j :=
                resting.entries _ standing isDir name j (List.mem_of_getElem? listed)
              have taken := visited'.got standingNext.1 got
              have canGet := visited'.canGet resting.nonneg number got
              have kept : (fs'.icache ip).inum = (fs.icache ip).inum :=
                got.kept live.ref_pos
              dsimp only
              rw [Prog.ensures_exec_bind]
              refine (iunlockput_spec devsw p (k := { k with fs := fs' }) resting taken ?_ ?_).mono
                ?_ fun _ never => never.elim
              · have another : (0 : Int) ≤ (Pi.single next 1 : Slot → Int) ip := by
                  rw [Pi.single_apply]
                  split <;> simp
                simp only [Pi.add_apply, Pi.single_eq_same]
                omega
              · dsimp only
                rwa [kept]
              · rintro - after ⟨visited'', same'⟩
                dsimp only at visited'' same'
                rw [add_sub_cancel_left] at visited''
                have isNext : (after.fs.icache next).inum = j := (same' next).trans got.number
                rw [resolve, bound]
                refine (ih name (by omega) visited'' (by rwa [isNext])).mono ?_ ?_
                · rintro result last ⟨resolved, reach⟩
                  rw [isNext] at resolved reach
                  refine ⟨resolved, fun _ j' found => ?_⟩
                  obtain rfl : j = j' := by
                    rw [child, bound] at found
                    exact Option.some.inj found
                  exact ⟨canGet, reach⟩
                · intro stop unreachable reach
                  rw [isNext] at unreachable
                  exact unreachable (reach goesOn j (child.trans bound)).2
          · rintro stop ⟨j, bound, full⟩ reach
            exact visited'.not_canGet resting.nonneg number full
              (reach goesOn j (child.trans bound)).1
      · rw [if_pos isDir, Prog.ensures_exec_bind]
        have dropped := iunlockput_spec devsw p (k := { k with fs := fs }) resting visited' held
          standing'
        refine dropped.mono ?_ fun _ never => never.elim
        rintro - after ⟨visited'', -⟩
        rw [none] at visited''
        refine ⟨⟨?_, visited''⟩, fun _ j found => ?_⟩
        · rw [Fs.resolve, if_pos isDir]
        · rw [Fs.child, if_neg isDir] at found
          cases found

end Loop

/-! ## Paths -/

section Paths

variable {Pid : Type} [DecidableEq Pid] (devsw : Devsw) (p : Pid) {k : Kernel Pid} {cwd : Slot}

def origin (fs : Fs) (cwd : Slot) (path : List UInt8) : Nat :=
  if path.head? = some slash then ROOTINO else (fs.icache cwd).inum

def Reachable (fs : Fs) (parent : Bool) (cwd : Slot) (path : List UInt8) : Prop :=
  (path.head? = some slash → fs.Used ROOTINO ∨ ∃ ip, (fs.icache ip).ref = 0) ∧
    fs.Reach parent (origin fs cwd path) (components path)

instance (fs : Fs) (parent : Bool) (cwd : Slot) (path : List UInt8) :
    Decidable (Reachable fs parent cwd path) := inferInstanceAs (Decidable (_ ∧ _))

/-- A state at rest and a process with a current directory in it. -/
structure AtRest (k : Kernel Pid) (p : Pid) (cwd : Slot) : Prop where
  resting : k.fs.Resting
  directory : (k.procs p).cwd = some cwd
  referenced : 0 < (k.fs.icache cwd).ref
  allocated : (k.fs.cur (k.fs.icache cwd).inum).type ≠ 0

theorem namex_spec (atRest : AtRest k p cwd) (parent : Bool) (path : List UInt8) :
    (alone devsw p (namex path parent)).Ensures k
      (fun result after =>
        Resolved k.fs (k.fs.resolve parent (origin k.fs cwd path) [] (components path)) result
          after.fs ∧ Reachable k.fs parent cwd path)
      (fun _ => ¬Reachable k.fs parent cwd path) := by
  have resting := atRest.resting
  have visited := Visited.refl resting.sound resting.settled resting.idle
  unfold namex
  dsimp only
  by_cases absolute : path.head? = some slash
  · have isOrigin : origin k.fs cwd path = ROOTINO := if_pos absolute
    rw [if_pos absolute]
    simp only [call, Prog.op_bind, Prog.ensures_call, Op.exec, ensures_onFs]
    refine iget_got.mono (fun ip fs got => ?_) fun stop full reach => ?_
    · have taken := visited.got resting.root.1 got
      rw [zero_add] at taken
      have room : k.fs.Used ROOTINO ∨ ∃ ip, (k.fs.icache ip).ref = 0 := by
        cases got with
        | hit referenced number => exact .inl ⟨ip, referenced, number⟩
        | miss unused absent => exact .inr ⟨ip, unused⟩
      have number := got.number
      refine (namexLoop_spec devsw p (k := { k with fs := fs }) resting parent _ []
        (Nat.lt_succ_self _) taken (by dsimp only; rw [number]; exact resting.root)).mono ?_ ?_
      · rintro result after ⟨resolved, reach⟩
        dsimp only at resolved reach
        rw [number, ← isOrigin] at resolved reach
        exact ⟨resolved, fun _ => room, reach⟩
      · intro stop unreachable reach
        dsimp only at unreachable
        rw [number, ← isOrigin] at unreachable
        exact unreachable reach.2
    · rcases reach.1 absolute with ⟨ip, referenced, number⟩ | ⟨ip, free⟩
      · exact full.2 ip referenced number
      · exact full.1 ip free
  · have isOrigin : origin k.fs cwd path = (k.fs.icache cwd).inum := if_neg absolute
    rw [if_neg absolute]
    simp only [call, Prog.op_bind, Prog.ensures_call, Op.exec, idupCwd, ensures_bind, ensures_get,
      atRest.directory, ensures_onFs]
    refine (visited.idup atRest.referenced).mono ?_ fun _ never => never.elim
    rintro ip fs ⟨rfl, taken⟩
    rw [zero_add] at taken
    have number : (fs.icache ip).inum = (k.fs.icache ip).inum := taken.kept ip atRest.referenced
    have standing : k.fs.Standing (k.fs.icache ip).inum :=
      ⟨resting.sound.inums ip atRest.referenced, atRest.allocated,
        .inr ⟨ip, atRest.referenced, rfl⟩⟩
    refine (namexLoop_spec devsw p (k := { k with fs := fs }) resting parent _ []
      (Nat.lt_succ_self _) taken (by dsimp only; rw [number]; exact standing)).mono ?_ ?_
    · rintro result after ⟨resolved, reach⟩
      dsimp only at resolved reach
      rw [number, ← isOrigin] at resolved reach
      exact ⟨resolved, fun isAbsolute => absurd isAbsolute absolute, reach⟩
    · intro stop unreachable reach
      dsimp only at unreachable
      rw [number, ← isOrigin] at unreachable
      exact unreachable reach.2

/-- The reference counts are what they were, but for one reference more to `extra`; so are
all files. -/
structure Counted (fs after : Fs) (extra : Option Slot) : Prop where
  disk : after.disk = fs.disk
  ref : ∀ jp, (after.icache jp).ref = (fs.icache jp).ref + if extra = some jp then 1 else 0
  kept : ∀ jp, 0 < (fs.icache jp).ref → (after.icache jp).inum = (fs.icache jp).inum

theorem counted_none {fs after : Fs} (visited : Visited fs after 0 none) : Counted fs after none :=
  ⟨visited.disk, fun jp => by simpa using visited.ref jp, visited.kept⟩

theorem counted_some {fs after : Fs} {ip : Slot}
    (visited : Visited fs after (Pi.single ip 1) none) : Counted fs after (some ip) := by
  refine ⟨visited.disk, fun jp => ?_, visited.kept⟩
  rw [visited.ref, Pi.single_apply]
  simp [eq_comm]

def NameiRight (k : Kernel Pid) (cwd : Slot) (path : List UInt8) :
    Option Slot → Kernel Pid → Prop
  | none, after => k.fs.walk (origin k.fs cwd path) (components path) = none ∧
      Counted k.fs after.fs none
  | some ip, after => k.fs.walk (origin k.fs cwd path) (components path) =
      some (after.fs.icache ip).inum ∧ Counted k.fs after.fs (some ip)

def NameiparentRight (k : Kernel Pid) (cwd : Slot) (path : List UInt8) :
    Option (Slot × List UInt8) → Kernel Pid → Prop
  | none, after => k.fs.walkParent (origin k.fs cwd path) (components path) = none ∧
      Counted k.fs after.fs none
  | some (ip, name), after => k.fs.walkParent (origin k.fs cwd path) (components path) =
      some ((after.fs.icache ip).inum, name) ∧ Counted k.fs after.fs (some ip)

theorem namei_right_iff (atRest : AtRest k p cwd) (path : List UInt8) :
    (alone devsw p (namei path)).Ensures k (NameiRight k cwd path) (fun _ => False) ↔
      Reachable k.fs false cwd path := by
  refine Ensures.iff_of_decides ?_
  unfold namei
  rw [Prog.ensures_exec_bind]
  refine (namex_spec devsw p atRest false path).mono ?_ fun _ unreachable => unreachable
  rintro result after ⟨resolved, reach⟩
  have walk := @resolve_false k.fs (origin k.fs cwd path) [] (components path)
  cases result with
  | none =>
    obtain ⟨answer, visited⟩ := resolved
    rw [answer] at walk
    exact .inl ⟨reach, walk.symm, counted_none visited⟩
  | some found =>
    obtain ⟨ip, name⟩ := found
    obtain ⟨answer, visited⟩ := resolved
    rw [answer] at walk
    exact .inl ⟨reach, walk.symm, counted_some visited⟩

theorem nameiparent_right_iff (atRest : AtRest k p cwd) (path : List UInt8) :
    (alone devsw p (nameiparent path)).Ensures k (NameiparentRight k cwd path) (fun _ => False) ↔
      Reachable k.fs true cwd path := by
  refine Ensures.iff_of_decides ((namex_spec devsw p atRest true path).mono ?_
    fun _ unreachable => unreachable)
  rintro result after ⟨resolved, reach⟩
  rw [resolve_true] at resolved
  cases result with
  | none => exact .inl ⟨reach, resolved.1, counted_none resolved.2⟩
  | some found => exact .inl ⟨reach, resolved.1, counted_some resolved.2⟩

/-- Path resolution is the lookup of one component after another, and takes one reference, to
the inode it returns, exactly if the inode cache has room for the inodes on the way. -/
theorem path_resolution_iff (atRest : AtRest k p cwd) (path : List UInt8) :
    ((alone devsw p (namei path)).Ensures k (NameiRight k cwd path) (fun _ => False) ∧
      (alone devsw p (nameiparent path)).Ensures k (NameiparentRight k cwd path)
        (fun _ => False)) ↔
      Reachable k.fs false cwd path := by
  refine ⟨fun both => (namei_right_iff devsw p atRest path).mp both.1, fun reach => ⟨?_, ?_⟩⟩
  · exact (namei_right_iff devsw p atRest path).mpr reach
  · exact (nameiparent_right_iff devsw p atRest path).mpr ⟨reach.1, reach.2.parent⟩

end Paths

/-- A kernel with one process, whose current directory is the root, in slot 0. -/
def rooted (fs : Fs) : Kernel Unit where
  fs := fs
  ftable _ := { type := .none, ref := 0, readable := false, writable := false, ip := 0, off := 0 }
  procs _ := { cwd := some 0, ofile := fun _ => none }
  sections := []
  claimed _ := none

/-- What can be checked of a state whose only directory is the root. -/
def OneDirectory (fs : Fs) : Prop :=
  (∀ ip, 0 ≤ (fs.icache ip).ref ∧ (0 < (fs.icache ip).ref → (fs.icache ip).busy = false)) ∧
  (∀ i < fs.sb.ninodes, (fs.cur i).type = T_DIR → i = ROOTINO) ∧
  fs.Standing ROOTINO ∧ DESIZE ∣ (fs.cur ROOTINO).size ∧
  (∀ slot ∈ fs.names ROOTINO, ∀ entry ∈ slot, fs.Standing entry.2) ∧
  (fs.icache 0).inum = ROOTINO ∧ 0 < (fs.icache 0).ref

instance (fs : Fs) : Decidable (OneDirectory fs) := inferInstanceAs (Decidable (_ ∧ _))

theorem OneDirectory.atRest {fs : Fs} (one : OneDirectory fs) (sound : fs.Sound)
    (settled : fs.Settled) : AtRest (rooted fs) () 0 := by
  obtain ⟨slots, only, root, aligned, entries, number, referenced⟩ := one
  refine ⟨⟨sound, settled, fun ip => (slots ip).1, fun ip => (slots ip).2,
    fun i standing isDir => ?_, fun i standing isDir name j listed => ?_, root⟩, rfl,
    referenced, ?_⟩
  · rw [only i standing.1 isDir]
    exact aligned
  · rw [only i standing.1 isDir] at listed
    exact entries _ listed _ rfl
  · change (fs.cur (fs.icache 0).inum).type ≠ 0
    rw [number]
    exact root.2.1

/-- Make a root directory that lists one file, `x`, and leave the root in slot 0. -/
def plantX : List InodeOp :=
  [.ialloc 1, .ilock 0, .iupdate 0 0 0 1, .ialloc 2, .ilock 1, .iupdate 1 0 0 1,
    .iunlock 1, .iput 1, .writei 0 (Dirent.encode ⟨2, [120]⟩) 0, .iunlock 0]

/-- `/x` is found while the cache is empty but for the root. -/
theorem path_resolution_iff_x : ∃ fs : Fs,
    (alone noDevices () (namei [slash, 120])).Ensures (rooted fs)
      (NameiRight (rooted fs) 0 [slash, 120]) (fun _ => False) ∧
    fs.walk (origin fs 0 [slash, 120]) (components [slash, 120]) = some 2 := by
  obtain ⟨fs, -, sound, settled, one, reach, walk⟩ := exists_of_blank plantX
    (fun fs => OneDirectory fs ∧ Reachable fs false 0 [slash, 120] ∧
      fs.walk (origin fs 0 [slash, 120]) (components [slash, 120]) = some 2) (by decide +kernel)
  exact ⟨fs, ((path_resolution_iff noDevices () (one.atRest sound settled) _).mpr reach).1, walk⟩

/-- Once 49 files are open, `/x` makes the kernel panic. -/
theorem path_resolution_full : ∃ fs : Fs, AtRest (rooted fs) () 0 ∧
    fs.walk (origin fs 0 [slash, 120]) (components [slash, 120]) = some 2 ∧
    ¬(alone noDevices () (namei [slash, 120])).Ensures (rooted fs)
      (NameiRight (rooted fs) 0 [slash, 120]) (fun _ => False) := by
  obtain ⟨fs, -, sound, settled, one, walk, stops⟩ := exists_of_blank
    (plantX ++ List.replicate 49 (.ialloc 2))
    (fun fs => OneDirectory fs ∧
      fs.walk (origin fs 0 [slash, 120]) (components [slash, 120]) = some 2 ∧
      (alone noDevices () (namei [slash, 120]) (rooted fs)).isOk = false) (by decide +kernel)
  refine ⟨fs, one.atRest sound settled, walk, fun ensures => ?_⟩
  obtain ⟨result, after, returned, -⟩ := ensures.exists_ok
  rw [returned] at stops
  cases stops

end Sys

end Xv6
