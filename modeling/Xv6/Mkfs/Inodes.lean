import Xv6.Mkfs.Append

/-!
# The inodes of an image

`Ok` is what holds of an image between two calls of `ialloc` and `iappend`: it
is a file system of the kernel whose inodes have exactly the blocks their sizes
need, and every block below `freeblock` is in use.  The two functions keep it
as long as inode numbers stay below `NINODES`.
-/

namespace Xv6.Mkfs

open Exec Fs

namespace Image

variable (s : Image)

def dinode (i : Nat) : Dinode := sb.dinode s.sector i

def addr (i pos : Nat) : Nat := (s.view []).addr i pos

def byte (i k : Nat) : UInt8 := (s.view []).byte i k

end Image

structure Ok (s : Image) : Prop where
  length : s.length = FSSIZE
  lower : nmeta ≤ s.freeblock
  upper : s.freeblock ≤ FSSIZE
  fresh : ∀ b, s.freeblock ≤ b → b < FSSIZE → s.sector b = zeroes
  owned : (s.view []).Owned
  exact : ∀ i < NINODES, (s.dinode i).type ≠ 0 → Exact (s.view []) i (s.dinode i).size
  /-- past the end of a file there are zeroes -/
  zero : ∀ i < NINODES, ∀ k, (s.dinode i).size ≤ k → s.byte i k = 0
  covered : ∀ b, nmeta ≤ b → b < s.freeblock → ∃ i pos, s.addr i pos = b
  first : 1 ≤ s.freeinode
  last : s.freeinode ≤ NINODES
  allocated : ∀ i < NINODES, (s.dinode i).type ≠ 0 ↔ 1 ≤ i ∧ i < s.freeinode

section Open

variable {s : Image} {inum : Nat} {logged : List Nat}

theorem iblock_ne {i : Nat} (inode : i < NINODES) : sb.iblock i ≠ sb.bmapstart :=
  (iblock_lt inode).ne

theorem iblock_lt_size {i : Nat} (inode : i < NINODES) : sb.iblock i < FSSIZE := by
  have below := iblock_lt inode
  rw [bmapstart_eq] at below
  simp only [FSSIZE]
  omega

theorem view_dinode (logged : List Nat) {i : Nat} (inode : i < NINODES) :
    (s.view logged).dinode i = s.dinode i :=
  Superblock.dinode_update_ne (iblock_ne inode)

theorem openView_dinode {din : Dinode} {i : Nat} (inode : i < NINODES) :
    (s.openView inum din logged).dinode i = s.dinode i := view_dinode logged inode

theorem view_not_live (ip : Slot) : ¬(s.view logged).Live ip := by
  rintro ⟨referenced, _⟩
  exact absurd referenced (lt_irrefl _)

theorem view_cur (logged : List Nat) (i : Nat) : (s.view logged).cur i = (s.view logged).dinode i :=
  cur_of_not_live fun ip live => absurd live (view_not_live ip)

theorem Ok.opened (ok : Ok s) (inode : inum < NINODES) :
    Alike (s.view []) (s.openView inum (s.dinode inum) []) := by
  have settable : Settable (s.view []) 0 (openSlot inum (s.dinode inum)) inum := by
    refine ⟨fun live => absurd live (view_not_live 0), fun _ => ⟨rfl, inode⟩, ?_, ?_⟩
    · intro jp _ referenced
      exact absurd referenced (lt_irrefl _)
    · intro _ _ _
      exact .inr (view_dinode [] inode).symm
  exact settable.alike ok.owned fun live => absurd live (view_not_live 0)

theorem Ok.building (ok : Ok s) (inode : inum < NINODES) (type : (s.dinode inum).type ≠ 0) :
    Building s inum (s.dinode inum) [] :=
  ⟨ok.length, ok.lower, ok.upper, ok.fresh, type, (ok.opened inode).owned⟩

theorem openView_close {din : Dinode} :
    (s.openView inum din logged).setSlot 0 unusedSlot = s.view logged := by
  have same : Function.update (fun _ : Slot => unusedSlot) 0 unusedSlot = fun _ => unusedSlot :=
    Function.update_eq_self _ _
  unfold Image.openView Fs.setSlot
  dsimp only
  rw [Function.update_idem]
  unfold Image.view
  dsimp only
  rw [same]

theorem Building.closed {din : Dinode} (building : Building s inum din logged)
    (inode : inum < NINODES) (stored : s.dinode inum = din) :
    Alike (s.openView inum din logged) (s.view logged) := by
  have settable : Settable (s.openView inum din logged) 0 unusedSlot inum := by
    refine ⟨fun _ => openView_inum s inum din logged, fun referenced => ?_, ?_,
      fun referenced => ?_⟩
    · exact absurd referenced (lt_irrefl _)
    · intro jp other referenced
      rw [show (s.openView inum din logged).icache jp = unusedSlot from
        setSlot_icache_ne _ other] at referenced
      exact absurd referenced (lt_irrefl _)
    · exact absurd referenced (lt_irrefl _)
  have change := settable.change building.owned
  rw [openView_close] at change
  refine ⟨change.toOwned building.owned, rfl, rfl, rfl, ?_⟩
  intro j
  by_cases here : j = inum
  · have live := cur_of_live building.owned.unique building.live
    rw [openView_inum, openView_copy] at live
    rw [here, view_cur, view_dinode logged inode, stored, live]
  · exact change.concerns.cur_eq here rfl

end Open

/-! ## Appending -/

/-- The bytes `p` have been appended to inode `inum` of the image. -/
structure Appended (s s' : Image) (inum : Nat) (p : List UInt8) : Prop where
  ok : Ok s'
  inode : s'.dinode inum = { s.dinode inum with
    size := (s.dinode inum).size + p.length, addrs := (s'.dinode inum).addrs }
  others : ∀ j < NINODES, j ≠ inum → s'.dinode j = s.dinode j
  byte : ∀ j k, s'.byte j k =
    if j = inum ∧ (s.dinode inum).size ≤ k ∧ k < (s.dinode inum).size + p.length then
      p.getD (k - (s.dinode inum).size) 0
    else s.byte j k
  freeblock : s'.freeblock + blocks (s.dinode inum).size =
    s.freeblock + blocks ((s.dinode inum).size + p.length)
  freeinode : s'.freeinode = s.freeinode

def Image.putInode (s : Image) (inum : Nat) (d : Dinode) : Image :=
  s.put (sb.iblock inum) ((s.sector (sb.iblock inum)).setDinode (inum % IPB) d)

section Append

variable {s s' : Image} {inum : Nat} {din d : Dinode} {logged logged' : List Nat} {p : List UInt8}

theorem winode_spec (inode : inum < NINODES) (length : s.length = FSSIZE) (d : Dinode)
    {good : Unit → Image → Prop} {bad : Exit → Prop} (holds : good () (s.putInode inum d)) :
    (winode inum d).Ensures s good bad := by
  have inside := iblock_lt_size inode
  unfold winode
  simp only [ensures_bind, ensures_rsect, ensures_wsect]
  exact ⟨fun _ => holds, fun outside => by omega⟩

theorem rinode_spec (inode : inum < NINODES) (length : s.length = FSSIZE)
    {good : Dinode → Image → Prop} {bad : Exit → Prop} (holds : good (s.dinode inum) s) :
    (rinode inum).Ensures s good bad := by
  have inside := iblock_lt_size inode
  unfold rinode
  simp only [ensures_bind, ensures_rsect, ensures_pure]
  exact ⟨fun _ => holds, fun outside => by omega⟩

theorem dinode_putInode (range : d.InRange) (j : Nat) :
    (s.putInode inum d).dinode j = if j = inum then d else s.dinode j :=
  Superblock.dinode_setDinode s.sector range j

theorem store_openView (inode : inum < NINODES) (d : Dinode) :
    (s.openView inum din logged).store 0 d =
      (s.putInode inum d).openView inum d (sb.iblock inum :: logged) := by
  have apart := iblock_ne inode
  unfold Fs.store
  rw [openView_inum, openView_sb, setCopy_openView, ← sector_eq apart,
    write_openView s inum d logged apart]
  rfl

theorem Building.putInode (building : Building s inum din logged) (inode : inum < NINODES)
    (type : d.type ≠ 0)
    (owned : ((s.putInode inum d).openView inum d (sb.iblock inum :: logged)).Owned) :
    Building (s.putInode inum d) inum d (sb.iblock inum :: logged) := by
  have inside := iblock_lt_size inode
  refine ⟨building.length_put inside, building.lower, building.upper, ?_, type, owned⟩
  intro b above bound
  have low := iblock_lt inode
  have start := building.lower
  have one := bmapstart_eq
  have two := nmeta_eq
  have lower : s.freeblock ≤ b := above
  change Function.update s.sector (sb.iblock inum) _ b = zeroes
  rw [Function.update_of_ne (by omega)]
  exact building.fresh b lower bound

theorem Appends.copy {off : Nat} (appends : Appends s s' inum din d logged logged' off p) :
    d = { din with addrs := d.addrs } := by
  have entry := appends.wrote.grows.copy
  rw [openView_icache, openView_icache] at entry
  exact congrArg Inode.copy entry

theorem Building.range_size (building : Building s inum din logged) {size : Nat}
    (bounded : size ≤ MAXFILE * BSIZE) : Dinode.InRange { din with size := size } := by
  have old := building.owned.range 0 building.live
  rw [openView_copy] at old
  refine ⟨old.type, old.major, old.minor, old.nlink, ?_, old.addrs⟩
  simp only [MAXFILE, NDIRECT, NINDIRECT, BSIZE] at bounded
  change size < 2 ^ 32
  omega

section Stored

variable (ok : Ok s) (inode : inum < NINODES) (type : (s.dinode inum).type ≠ 0) (some : p ≠ [])
  (bounded : (s.dinode inum).size + p.length ≤ MAXFILE * BSIZE)
  (new : d = { din with size := (s.dinode inum).size + p.length })
  (appends : Appends s s' inum (s.dinode inum) din [] logged' (s.dinode inum).size p)

include ok inode type some bounded new appends

theorem Appends.written :
    (∀ j pos, ((s'.putInode inum d).openView inum d (sb.iblock inum :: logged')).addr j pos =
      (s'.openView inum din logged').addr j pos) ∧
    Written (s.openView inum (s.dinode inum) [])
      ((s'.putInode inum d).openView inum d (sb.iblock inum :: logged')) 0
      (s.dinode inum).size p := by
  subst new
  have positive : 0 < p.length := List.length_pos_iff.mpr some
  have size : din.size = (s.dinode inum).size := by rw [appends.copy]
  have live := (ok.building inode type).live
  have accepted : ¬WriteRejected ((s.openView inum (s.dinode inum) []).icache 0).copy.size
      (s.dinode inum).size p.length := by
    rw [openView_copy]
    exact not_or.mpr ⟨lt_irrefl _, Nat.not_lt.mpr bounded⟩
  have written := appends.wrote.grow live accepted
  have grown : (s'.openView inum din logged').grow 0 ((s.dinode inum).size + p.length) =
      (s'.openView inum din logged').store 0
        { din with size := (s.dinode inum).size + p.length } := by
    rw [Fs.grow, openView_copy, if_pos (by omega)]
  rw [grown, store_openView inode] at written
  refine ⟨?_, written⟩
  have range := appends.building.range_size bounded
  have same := appends.building.owned.store_header appends.building.live range
    appends.building.type bounded (by rw [openView_copy])
  rw [store_openView inode] at same
  exact same.addr

theorem Appends.appended : Appended s (s'.putInode inum d) inum p := by
  obtain ⟨addrs, written⟩ := appends.written ok inode type some bounded new
  have opened := ok.opened inode
  have range : d.InRange := new ▸ appends.building.range_size bounded
  have dinodes : ∀ j, (s'.putInode inum d).dinode j = if j = inum then d else s'.dinode j :=
    fun j => dinode_putInode range j
  have mine : (s'.putInode inum d).dinode inum = d := by rw [dinodes, if_pos rfl]
  have typed : d.type ≠ 0 := by
    rw [new]
    exact appends.building.type
  have building := appends.building.putInode inode typed written.owned
  have closed := building.closed inode mine
  have entry : d = { s.dinode inum with
      size := (s.dinode inum).size + p.length, addrs := d.addrs } := by
    rw [new, appends.copy]
  have size : d.size = (s.dinode inum).size + p.length := by rw [new]
  have kind : d.type = (s.dinode inum).type := by rw [new, appends.copy]
  -- the view with an empty cache and log is the one `Ok` speaks about
  have addr : ∀ j pos, (s'.putInode inum d).addr j pos =
      (s'.openView inum din logged').addr j pos :=
    fun j pos => (closed.addr j pos).trans (addrs j pos)
  have old : ∀ j pos, s.addr j pos = (s.openView inum (s.dinode inum) []).addr j pos :=
    fun j pos => (opened.addr j pos).symm
  have others : ∀ j < NINODES, j ≠ inum → (s'.putInode inum d).dinode j = s.dinode j := by
    intro j small other
    have same := written.dinode j small (by rwa [openView_inum])
    rwa [openView_dinode small, openView_dinode small] at same
  have keep : ∀ j pos, s.addr j pos ≠ 0 → (s'.putInode inum d).addr j pos = s.addr j pos := by
    intro j pos mapped
    rw [old] at mapped ⊢
    rw [← written.keep j pos mapped]
    exact closed.addr j pos
  have byte : ∀ j k, (s'.putInode inum d).byte j k =
      if j = inum ∧ (s.dinode inum).size ≤ k ∧ k < (s.dinode inum).size + p.length then
        p.getD (k - (s.dinode inum).size) 0
      else s.byte j k := by
    intro j k
    have same := (closed.byte j k).trans (written.byte j k)
    rw [openView_inum, opened.byte] at same
    exact same
  refine ⟨⟨building.length, building.lower, building.upper, building.fresh,
    closed.owned.withLog, ?_, ?_, ?_, ?_, ?_, ?_⟩, ?_, others, byte, appends.freeblock,
    appends.freeinode⟩
  · intro i small isTyped pos
    by_cases here : i = inum
    · subst here
      rw [mine, size]
      have mapped := appends.exact pos
      rwa [← addr] at mapped
    · rw [others i small here] at isTyped ⊢
      have same : (s'.putInode inum d).addr i pos = s.addr i pos := by
        rw [old, ← written.other i pos (by rwa [openView_inum])]
        exact closed.addr i pos
      have mapped := ok.exact i small isTyped pos
      rw [show ((s'.putInode inum d).view []).addr i pos = s.addr i pos from same]
      exact mapped
  · intro i small k past
    rw [byte]
    by_cases here : i = inum
    · subst here
      rw [mine, size] at past
      rw [if_neg (by omega)]
      exact ok.zero i small k (by omega)
    · rw [others i small here] at past
      rw [if_neg (fun all => here all.1)]
      exact ok.zero i small k past
  · intro b lower below
    by_cases before : b < s.freeblock
    · obtain ⟨i, pos, held⟩ := ok.covered b lower before
      have positive : s.addr i pos ≠ 0 := by
        have := nmeta_eq
        omega
      exact ⟨i, pos, (keep i pos positive).trans held⟩
    · have inside : b < FSSIZE := below.trans_le building.upper
      have marked := (written.used b inside).mp
        (by rw [used_openView _ _ _ _ inside]; exact decide_eq_true below)
      rw [used_openView _ _ _ _ inside, decide_eq_true_eq] at marked
      obtain ⟨pos, _, held⟩ := marked.resolve_left before
      exact ⟨inum, pos, (closed.addr inum pos).trans (by rwa [openView_inum] at held)⟩
  · rw [show (s'.putInode inum d).freeinode = s.freeinode from appends.freeinode]
    exact ok.first
  · rw [show (s'.putInode inum d).freeinode = s.freeinode from appends.freeinode]
    exact ok.last
  · intro i small
    rw [show (s'.putInode inum d).freeinode = s.freeinode from appends.freeinode,
      ← ok.allocated i small]
    by_cases here : i = inum
    · rw [here, mine, kind]
    · rw [others i small here]
  · rw [mine]
    exact entry

end Stored

theorem iappend_spec (ok : Ok s) (inode : inum < NINODES) (type : (s.dinode inum).type ≠ 0)
    (some : p ≠ []) :
    (iappend inum p).Ensures s (fun _ s' => Appended s s' inum p)
      (fun _ => Overflows s.freeblock (s.dinode inum).size p.length) := by
  have size : (s.dinode inum).size ≤ MAXFILE * BSIZE := by
    have bound := ok.owned.bounded inum inode
    rw [view_cur, view_dinode [] inode] at bound
    exact bound type
  have building := ok.building inode type
  have exact : Exact (s.openView inum (s.dinode inum) []) inum (s.dinode inum).size := by
    intro pos
    rw [(ok.opened inode).addr]
    exact ok.exact inum inode type pos
  unfold iappend
  rw [ensures_bind]
  refine rinode_spec inode ok.length ?_
  refine (iappendLoop_spec le_rfl building exact size).bind ?_ (fun _ overflows => overflows)
  rintro ⟨last, din⟩ s' ⟨ends, bounded, logged', appends⟩
  dsimp only at ends
  subst ends
  exact winode_spec inode appends.building.length _
    (appends.appended ok inode type some bounded rfl)

end Append

/-! ## Allocating an inode -/

/-- Inode `s.freeinode` has been allocated in the image. -/
structure Allocated (s s' : Image) (type : Nat) : Prop where
  ok : Ok s'
  inode : s'.dinode s.freeinode = { Dinode.zeroed type with nlink := 1 }
  others : ∀ j < NINODES, j ≠ s.freeinode → s'.dinode j = s.dinode j
  byte : ∀ j k, s'.byte j k = s.byte j k
  freeblock : s'.freeblock = s.freeblock
  freeinode : s'.freeinode = s.freeinode + 1

section Allocate

variable {s : Image} {type inum : Nat}

theorem not_occupied_zero (pos : Nat) : ¬Occupied 0 pos := by
  rintro (⟨bn, _, below⟩ | ⟨_, below⟩)
  · exact Nat.not_lt_zero _ below
  · exact Nat.not_lt_zero _ below

theorem setDinode_view (inode : inum < NINODES) (d : Dinode) :
    (s.view []).setDinode inum d = (s.putInode inum d).view [sb.iblock inum] := by
  have apart := iblock_ne inode
  unfold Fs.setDinode Fs.write
  rw [view_disk, view_sb, Function.update_of_ne apart, Function.update_comm apart.symm]
  rfl

theorem inRange_new (fits : type < 2 ^ 16) :
    Dinode.InRange { Dinode.zeroed type with nlink := 1 } := by
  have zeroed := Dinode.inRange_zeroed fits
  have one : 1 < 2 ^ 16 := by decide
  exact ⟨zeroed.type, zeroed.major, zeroed.minor, one, zeroed.size, zeroed.addrs⟩

theorem Ok.allocate (ok : Ok s) (room : s.freeinode < NINODES) (positive : type ≠ 0)
    (fits : type < 2 ^ 16) :
    Allocated s ({ s with freeinode := s.freeinode + 1 }.putInode s.freeinode
      { Dinode.zeroed type with nlink := 1 }) type := by
  have range := inRange_new fits
  have empty : (s.dinode s.freeinode).type = 0 := by
    by_contra typed
    have allocated := (ok.allocated _ room).mp typed
    omega
  have free : ((s.view []).dinode s.freeinode).type = 0 := by rw [view_dinode [] room, empty]
  have blank : ∀ disk pos,
      ({ Dinode.zeroed type with nlink := 1 } : Dinode).addrAt disk pos = 0 :=
    addrAt_blank fun _ => rfl
  have change := ok.owned.setDinode room free range blank (Nat.zero_le _)
  have unmapped := ok.owned.addr_setDinode free range blank
  rw [setDinode_view room] at change
  rw [setDinode_view room] at unmapped
  have dinodes : ∀ j, (s.putInode s.freeinode { Dinode.zeroed type with nlink := 1 }).dinode j =
      if j = s.freeinode then { Dinode.zeroed type with nlink := 1 } else s.dinode j :=
    fun j => dinode_putInode range j
  have others : ∀ j, j ≠ s.freeinode →
      (s.putInode s.freeinode { Dinode.zeroed type with nlink := 1 }).dinode j = s.dinode j := by
    intro j other
    rw [dinodes, if_neg other]
  have addrs : ∀ j pos, (s.putInode s.freeinode { Dinode.zeroed type with nlink := 1 }).addr j pos =
      s.addr j pos := by
    intro j pos
    by_cases here : j = s.freeinode
    · have none : s.addr s.freeinode pos = 0 := by
        unfold Image.addr Fs.addr
        rw [view_cur, free, if_neg (fun all => all.2.1 rfl)]
      rw [here, none]
      exact unmapped pos
    · exact change.addr_other ok.owned here pos
  have byte : ∀ j k, (s.putInode s.freeinode { Dinode.zeroed type with nlink := 1 }).byte j k =
      s.byte j k := fun j k => change.byte_eq ok.owned fun _ => addrs j _
  have inside := iblock_lt_size room
  refine ⟨⟨?_, ok.lower, ok.upper, ?_, (change.toOwned ok.owned).withLog, ?_, ?_, ?_, ?_, room, ?_⟩,
    ?_, fun j _ => others j, byte, rfl, rfl⟩
  · change max s.length _ = FSSIZE
    rw [ok.length]
    omega
  · intro b above bound
    have low := iblock_lt room
    have start := ok.lower
    have one := bmapstart_eq
    have two := nmeta_eq
    have lower : s.freeblock ≤ b := above
    change Function.update s.sector (sb.iblock s.freeinode) _ b = zeroes
    rw [Function.update_of_ne (by omega)]
    exact ok.fresh b lower bound
  · intro i small typed pos
    refine Iff.trans (not_congr (Eq.congr_left (addrs i pos))) ?_
    by_cases here : i = s.freeinode
    · have none : s.addr i pos = 0 := by
        rw [here, ← addrs]
        exact unmapped pos
      have size : ((s.putInode s.freeinode
          { Dinode.zeroed type with nlink := 1 }).dinode i).size = 0 := by
        rw [dinodes, if_pos here]
        rfl
      exact iff_of_false (fun mapped => mapped none) (size ▸ not_occupied_zero pos)
    · have same := others i here
      change ((s.putInode s.freeinode { Dinode.zeroed type with nlink := 1 }).dinode i).type ≠ 0
        at typed
      change _ ↔ Occupied ((s.putInode s.freeinode
        { Dinode.zeroed type with nlink := 1 }).dinode i).size pos
      rw [same] at typed ⊢
      exact ok.exact i small typed pos
  · intro i small k past
    refine (byte i k).trans ?_
    by_cases here : i = s.freeinode
    · have none : s.addr i (blockPos (k / BSIZE)) = 0 := by
        rw [here, ← addrs]
        exact unmapped _
      exact if_pos none
    · refine ok.zero i small k ?_
      rw [← others i here]
      exact past
  · intro b lower below
    obtain ⟨i, pos, held⟩ := ok.covered b lower below
    exact ⟨i, pos, (addrs i pos).trans held⟩
  · exact Nat.le_succ_of_le ok.first
  · intro i small
    change ((s.putInode s.freeinode { Dinode.zeroed type with nlink := 1 }).dinode i).type ≠ 0 ↔
      1 ≤ i ∧ i < s.freeinode + 1
    by_cases here : i = s.freeinode
    · have first := ok.first
      rw [dinodes, if_pos here]
      exact iff_of_true positive (by omega)
    · rw [others i here, ok.allocated i small]
      omega
  · exact (dinodes s.freeinode).trans (if_pos rfl)

theorem ialloc_spec (ok : Ok s) (room : s.freeinode < NINODES) (positive : type ≠ 0)
    (fits : type < 2 ^ 16) :
    (ialloc type).Ensures s (fun inum s' => inum = s.freeinode ∧ Allocated s s' type)
      (fun _ => False) := by
  unfold ialloc
  simp only [ensures_bind, ensures_get, ensures_modify]
  refine winode_spec (s := { s with freeinode := s.freeinode + 1 }) room ok.length _ ?_
  exact ⟨rfl, ok.allocate room positive fits⟩

end Allocate

end Xv6.Mkfs
