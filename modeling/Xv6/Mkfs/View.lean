import Xv6.Mkfs.Model

/-!
# The image as the kernel would see it

While `mkfs` builds the image its bit map is still empty.  Read with the blocks
below `freeblock` marked and with one inode held in memory, the image is a file
system in the sense of the kernel at every moment: `iappend` allocates the
blocks `balloc` would and places them where `bmap` would.  What is known about
the kernel's file system therefore holds of the image.
-/

open Function (update update_comm update_eq_self_iff update_idem update_of_ne update_self)

namespace Xv6.Mkfs

open Exec Fs

/-! ## Views of an image -/

def unusedSlot : Inode where
  inum := 0
  ref := 0
  busy := false
  valid := false
  copy := Dinode.zeroed 0

def Image.view (s : Image) (logged : List Nat) : Fs where
  disk := update s.sector sb.bmapstart (bitmap s.freeblock)
  sb := sb
  icache _ := unusedSlot
  logged := logged

def openSlot (inum : Nat) (din : Dinode) : Inode where
  inum := inum
  ref := 1
  busy := false
  valid := true
  copy := din

def Image.openView (s : Image) (inum : Nat) (din : Dinode) (logged : List Nat) : Fs :=
  (s.view logged).setSlot 0 (openSlot inum din)

def Image.put (s : Image) (sec : Nat) (buf : Block) : Image :=
  { s with sector := update s.sector sec buf, length := max s.length (sec + 1) }

/-! ## Numbers -/

theorem nmeta_eq : nmeta = 59 := by decide

theorem bmapstart_eq : sb.bmapstart = 58 := by decide

theorem datastart_eq : sb.datastart = nmeta := by decide

theorem sb_size : sb.size = FSSIZE := rfl

theorem sb_ok : sb.Ok := mkfsSb_ok

theorem iblock_lt {i : Nat} (inode : i < NINODES) : sb.iblock i < sb.bmapstart :=
  sb_ok.inodes i inode

theorem data_ne_bmapstart {b : Nat} (data : nmeta ≤ b) : b ≠ sb.bmapstart := by
  have := bmapstart_eq
  have := nmeta_eq
  omega

theorem bblock_eq {b : Nat} (inside : b < FSSIZE) : sb.bblock b = sb.bmapstart := by
  simp only [Superblock.bblock, BPB, BSIZE, FSSIZE] at inside ⊢
  omega

/-! ## The bit map -/

theorem bitmap_succ (used : Nat) : bitmap (used + 1) = Bytes.setBit (bitmap used) used := by
  simp [bitmap, List.range_succ]

theorem getBit_bitmap {used k : Nat} (inside : k / 8 < BSIZE) :
    Bytes.getBit (bitmap used) k = decide (k < used) := by
  induction used with
  | zero => simp [bitmap, zeroes, Bytes.getBit]
  | succ used ih =>
    rw [bitmap_succ]
    by_cases same : k = used
    · subst same
      rw [Bytes.getBit_setBit_self _ inside]
      simp
    · rw [Bytes.getBit_setBit_ne _ same, ih, decide_eq_decide]
      omega

section Views

variable (s : Image) (inum : Nat) (din : Dinode) (logged : List Nat)

@[simp] theorem view_sb : (s.view logged).sb = sb := rfl

@[simp] theorem openView_sb : (s.openView inum din logged).sb = sb := rfl

theorem view_disk :
    (s.view logged).disk = update s.sector sb.bmapstart (bitmap s.freeblock) := rfl

theorem openView_disk : (s.openView inum din logged).disk = (s.view logged).disk := rfl

@[simp] theorem openView_icache : (s.openView inum din logged).icache 0 = openSlot inum din :=
  setSlot_icache_self 0 _

@[simp] theorem openView_copy : ((s.openView inum din logged).icache 0).copy = din := by
  rw [openView_icache]
  rfl

@[simp] theorem openView_inum : ((s.openView inum din logged).icache 0).inum = inum := by
  rw [openView_icache]
  rfl

theorem openView_live (type : din.type ≠ 0) : (s.openView inum din logged).Live 0 := by
  unfold Live
  rw [openView_icache]
  exact ⟨Int.one_pos, rfl, type⟩

theorem used_view {b : Nat} (inside : b < FSSIZE) :
    (s.view logged).used b = decide (b < s.freeblock) := by
  have bit : b % BPB = b := by
    simp only [BPB, BSIZE, FSSIZE] at inside ⊢
    omega
  rw [Fs.used, Superblock.used, view_sb, view_disk, bblock_eq inside, bit, update_self,
    getBit_bitmap]
  simp only [BSIZE, FSSIZE] at inside ⊢
  omega

theorem used_openView {b : Nat} (inside : b < FSSIZE) :
    (s.openView inum din logged).used b = decide (b < s.freeblock) := used_view s logged inside

theorem allocate_openView (upper : s.freeblock < FSSIZE) (lower : nmeta ≤ s.freeblock)
    (fresh : s.sector s.freeblock = zeroes) :
    (s.openView inum din logged).allocate s.freeblock =
      { s with freeblock := s.freeblock + 1 }.openView inum din
        (s.freeblock :: sb.bmapstart :: logged) := by
  have bit : s.freeblock % BPB = s.freeblock := by
    simp only [BPB, BSIZE, FSSIZE] at upper ⊢
    omega
  have apart := data_ne_bmapstart lower
  have disk : update (update (update s.sector sb.bmapstart
      (bitmap s.freeblock)) sb.bmapstart (bitmap (s.freeblock + 1))) s.freeblock zeroes =
      update s.sector sb.bmapstart (bitmap (s.freeblock + 1)) := by
    rw [update_idem, update_eq_self_iff, update_of_ne apart, fresh]
  unfold Fs.allocate Fs.write
  simp only [openView_sb, openView_disk, view_disk, bblock_eq upper, bit, update_self,
    ← bitmap_succ]
  rw [show (fun _ => 0 : Block) = zeroes from rfl, disk]
  rfl

theorem write_openView {b : Nat} (apart : b ≠ sb.bmapstart) (block : Block) :
    (s.openView inum din logged).write b block =
      (s.put b block).openView inum din (b :: logged) := by
  unfold Fs.write
  rw [openView_disk, view_disk, update_comm apart.symm]
  rfl

theorem setCopy_openView (din' : Dinode) :
    (s.openView inum din logged).setCopy 0 din' = s.openView inum din' logged := by
  unfold Fs.setCopy
  rw [openView_icache]
  unfold Image.openView Fs.setSlot
  rw [update_idem]
  rfl

end Views

/-! ## Rules for the parts of the program -/

section Rules

variable {s : Image} {bad : Exit → Prop}

@[simp]
theorem ensures_wsect {sec : Nat} {buf : Block} {good : Unit → Image → Prop} :
    (wsect sec buf).Ensures s good bad ↔ good () (s.put sec buf) := Iff.rfl

theorem ensures_rsect {sec : Nat} {good : Block → Image → Prop} :
    (rsect sec).Ensures s good bad ↔
      (sec < s.length → good (s.sector sec) s) ∧ (s.length ≤ sec → bad .read) := by
  unfold rsect
  simp only [ensures_bind, ensures_get]
  split
  next inside =>
    simp [inside, Nat.not_le.mpr inside]
  next outside =>
    simp [outside, Nat.not_lt.mp outside]

theorem ensures_takeBlock {good : Nat → Image → Prop} :
    takeBlock.Ensures s good bad ↔ good s.freeblock { s with freeblock := s.freeblock + 1 } :=
  Iff.rfl

end Rules

/-! ## An inode under construction -/

/-- The image is a file system with inode `inum` in memory, and the blocks from
`freeblock` on are still zero. -/
structure Building (s : Image) (inum : Nat) (din : Dinode) (logged : List Nat) : Prop where
  length : s.length = FSSIZE
  lower : nmeta ≤ s.freeblock
  upper : s.freeblock ≤ FSSIZE
  fresh : ∀ b, s.freeblock ≤ b → b < FSSIZE → s.sector b = zeroes
  type : din.type ≠ 0
  owned : (s.openView inum din logged).Owned

/-- One more block of the inode is mapped, after `need` blocks have been taken. -/
structure Advance (s s' : Image) (inum : Nat) (din din' : Dinode) (logged logged' : List Nat)
    (pos b : Nat) (also : Nat → Prop) (need : Nat) : Prop where
  building : Building s' inum din' logged'
  mapped : Mapped (s.openView inum din logged) (s'.openView inum din' logged') 0 pos b also
  freeblock : s'.freeblock = s.freeblock + need
  freeinode : s'.freeinode = s.freeinode

section Building

variable {s s' : Image} {inum : Nat} {din din' : Dinode} {logged logged' : List Nat}

theorem Building.live (building : Building s inum din logged) :
    (s.openView inum din logged).Live 0 := openView_live s inum din logged building.type

theorem Building.addr_direct (building : Building s inum din logged) {k : Nat}
    (direct : k ≤ NDIRECT) : (s.openView inum din logged).addr inum k = din.addr k :=
  building.owned.addr_direct building.live direct

theorem takeAddr_spec (building : Building s inum din logged) {k : Nat} (direct : k ≤ NDIRECT) :
    (takeAddr din k).Ensures s
      (fun din' s' =>
        (∃ logged', Advance s s' inum din din' logged logged' k (din'.addr k) (fun _ => False)
          (if din.addr k = 0 then 1 else 0)) ∨
        s.freeblock = FSSIZE ∧ din.addr k = 0 ∧ s'.length = FSSIZE ∧ din'.addr k = FSSIZE)
      (fun _ => False) := by
  unfold takeAddr
  split
  next empty =>
    simp only [ensures_bind, ensures_takeBlock, ensures_pure]
    have placed : (din.setAddr k s.freeblock).addr k = s.freeblock :=
      Dinode.addr_setAddr_self din _ (by omega)
    rcases Nat.lt_or_eq_of_le building.upper with room | full
    · left
      have free : (s.openView inum din logged).used s.freeblock = false := by
        rw [used_openView s inum din logged room]
        simp
      have fresh := building.fresh s.freeblock le_rfl room
      obtain ⟨fills, addrs⟩ := building.owned.fillAddr building.live direct empty room free
      rw [allocate_openView s inum din logged room building.lower fresh, openView_icache,
        setCopy_openView] at fills addrs
      refine ⟨_, ⟨building.length, ?_, room, ?_, building.type, fills.owned⟩, ?_, rfl, rfl⟩
      · exact Nat.le_succ_of_le building.lower
      · intro b above
        exact building.fresh b (Nat.le_of_succ_le above)
      · rw [placed]
        refine Mapped.of_placed _ fills ?_ ?_ addrs
        · have := building.lower
          have := nmeta_eq
          omega
        · exact (building.addr_direct direct).trans empty
    · exact .inr ⟨full, empty, building.length, placed.trans full⟩
  next present =>
    left
    have held := building.addr_direct direct
    refine ⟨logged, building, ?_, rfl, rfl⟩
    rw [← held]
    exact Mapped.refl building.owned 0 _ (held ▸ present)

theorem Building.area (building : Building s inum din logged) {i pos : Nat}
    (mapped : (s.openView inum din logged).addr i pos ≠ 0) :
    nmeta ≤ (s.openView inum din logged).addr i pos ∧
      (s.openView inum din logged).addr i pos < s.freeblock := by
  obtain ⟨lower, inside, marked⟩ := building.owned.area i pos mapped
  rw [openView_sb, datastart_eq] at lower
  rw [used_openView s inum din logged inside, decide_eq_true_eq] at marked
  exact ⟨lower, marked⟩

theorem Building.length_put (building : Building s inum din logged) {b : Nat}
    (inside : b < FSSIZE) : max s.length (b + 1) = FSSIZE := by
  rw [building.length]
  omega

theorem sector_eq {b : Nat} (apart : b ≠ sb.bmapstart) :
    s.sector b = (s.openView inum din logged).disk b := by
  rw [openView_disk, view_disk, update_of_ne apart]

theorem takeEntry_spec (building : Building s inum din logged)
    (indirect : din.addr NDIRECT ≠ 0) {e : Nat} (entry : e < NINDIRECT) :
    (takeEntry (din.addr NDIRECT) e).Ensures s
      (fun x s' =>
        (∃ logged', Advance s s' inum din din logged logged' (NDIRECT + 1 + e) x (fun _ => False)
          (if (s.openView inum din logged).addr inum (NDIRECT + 1 + e) = 0 then 1 else 0)) ∨
        s.freeblock = FSSIZE ∧
          (s.openView inum din logged).addr inum (NDIRECT + 1 + e) = 0 ∧
          s'.length = FSSIZE ∧ x = FSSIZE)
      (fun _ => False) := by
  have held := building.addr_direct (le_refl NDIRECT)
  obtain ⟨data, below⟩ := building.area (held ▸ indirect)
  rw [held] at data below
  have inside : din.addr NDIRECT < FSSIZE := below.trans_le building.upper
  have apart := data_ne_bmapstart data
  have word : (s.openView inum din logged).addr inum (NDIRECT + 1 + e) =
      (s.sector (din.addr NDIRECT)).word e := by
    rw [sector_eq apart]
    exact building.owned.addr_entry building.live indirect entry
  unfold takeEntry
  simp only [ensures_bind, ensures_rsect]
  refine ⟨fun _ => ?_, fun outside => by rw [building.length] at outside; omega⟩
  rw [word]
  split
  next empty =>
    simp only [ensures_bind, ensures_takeBlock, ensures_wsect, ensures_pure]
    rcases Nat.lt_or_eq_of_le building.upper with room | full
    · left
      have free : (s.openView inum din logged).used s.freeblock = false := by
        rw [used_openView s inum din logged room]
        simp
      have fresh := building.fresh s.freeblock le_rfl room
      have filled := building.owned.fillEntry building.live
        (by rw [openView_copy]; exact indirect) entry
        (by rw [openView_copy, ← sector_eq apart]; exact empty) room free
      simp only [openView_copy, openView_inum] at filled
      rw [allocate_openView s inum din logged room building.lower fresh,
        write_openView _ inum din _ apart, ← sector_eq apart] at filled
      obtain ⟨fills, addrs⟩ := filled
      refine ⟨_, ⟨building.length_put inside, ?_, room, ?_, building.type, fills.owned⟩, ?_, rfl,
        rfl⟩
      · exact Nat.le_succ_of_le building.lower
      · intro b above bound
        have other : b ≠ din.addr NDIRECT := by
          have lower : s.freeblock + 1 ≤ b := above
          omega
        change update s.sector (din.addr NDIRECT) _ b = zeroes
        rw [update_of_ne other]
        exact building.fresh b (Nat.le_of_succ_le above) bound
      · refine Mapped.of_placed _ fills ?_ ?_ ?_
        · have := building.lower
          have := nmeta_eq
          omega
        · rw [openView_inum, word]
          exact empty
        · rw [openView_inum]
          exact addrs
    · exact .inr ⟨full, empty, building.length_put inside, full⟩
  next present =>
    left
    refine ⟨logged, building, ?_, rfl, rfl⟩
    rw [← word]
    exact Mapped.refl building.owned 0 _ (word ▸ present)

/-- How many blocks have to be taken before block `fbn` of the file is mapped. -/
def need (s : Image) (inum : Nat) (din : Dinode) (logged : List Nat) (fbn : Nat) : Nat :=
  (if (s.openView inum din logged).addr inum (blockPos fbn) = 0 then 1 else 0) +
    if NDIRECT ≤ fbn ∧ din.addr NDIRECT = 0 then 1 else 0

theorem Advance.weaken {pos b count : Nat} {also more : Nat → Prop}
    (advance : Advance s s' inum din din' logged logged' pos b also count)
    (implies : ∀ other, also other → more other) :
    Advance s s' inum din din' logged logged' pos b more count :=
  ⟨advance.building, advance.mapped.weaken implies, advance.freeblock, advance.freeinode⟩

theorem Building.need_direct (building : Building s inum din logged) {fbn : Nat}
    (direct : fbn < NDIRECT) :
    need s inum din logged fbn = if din.addr fbn = 0 then 1 else 0 := by
  have near : ¬(NDIRECT ≤ fbn ∧ din.addr NDIRECT = 0) := fun far => Nat.not_lt.mpr far.1 direct
  rw [need, blockPos, if_pos direct, building.addr_direct direct.le, if_neg near, Nat.add_zero]

theorem Advance.entry_same {b e count : Nat}
    (first : Advance s s' inum din din' logged logged' NDIRECT b (fun _ => False) count) :
    (s'.openView inum din' logged').addr inum (NDIRECT + 1 + e) = 0 ↔
      (s.openView inum din logged).addr inum (NDIRECT + 1 + e) = 0 := by
  have only := first.mapped.only (NDIRECT + 1 + e)
  have keep := first.mapped.fills.keep inum (NDIRECT + 1 + e)
  rw [openView_inum] at only
  refine ⟨?_, ?_⟩
  · intro empty
    by_contra mapped
    rw [keep mapped] at empty
    exact mapped empty
  · intro empty
    by_contra mapped
    rcases only ⟨empty, mapped⟩ with same | impossible
    · omega
    · exact impossible

theorem Advance.entry {mid : Image} {din' : Dinode} {between : List Nat}
    {pointer b e first second : Nat}
    (one : Advance s mid inum din din' logged between NDIRECT pointer (fun _ => False) first)
    (two : Advance mid s' inum din' din' between logged' (NDIRECT + 1 + e) b (fun _ => False)
      second) :
    Advance s s' inum din din' logged logged' (NDIRECT + 1 + e) b (fun pos => pos = NDIRECT)
      (second + first) := by
  refine ⟨two.building, one.mapped.entry two.mapped, ?_, two.freeinode.trans one.freeinode⟩
  rw [two.freeblock, one.freeblock, Nat.add_assoc, Nat.add_comm first]

/-- What `fileBlock` does: it maps the block, or it runs out of blocks and the
block it returns cannot be read. -/
theorem fileBlock_spec (building : Building s inum din logged) {fbn : Nat}
    (inside : fbn < MAXFILE) :
    (fileBlock din fbn).Ensures s
      (fun result s' =>
        (∃ logged', Advance s s' inum din result.2 logged logged' (blockPos fbn) result.1
          (fun pos => pos = NDIRECT ∧ NDIRECT ≤ fbn) (need s inum din logged fbn)) ∨
        FSSIZE < s.freeblock + need s inum din logged fbn ∧ s'.length = FSSIZE ∧
          result.1 = FSSIZE)
      (fun _ => FSSIZE < s.freeblock + need s inum din logged fbn) := by
  unfold fileBlock
  split
  next direct =>
    rw [building.need_direct direct, blockPos, if_pos direct]
    refine (takeAddr_spec building direct.le).bind ?_ (fun _ => False.elim)
    simp only [ensures_pure]
    rintro din' s' (⟨logged', advance⟩ | ⟨full, empty, length, taken⟩)
    · exact .inl ⟨logged', advance.weaken fun _ => False.elim⟩
    · refine .inr ⟨?_, length, taken⟩
      rw [if_pos empty]
      omega
  next far =>
    have entry : fbn - NDIRECT < NINDIRECT := by
      simp only [MAXFILE] at inside
      omega
    have beyond : NDIRECT ≤ fbn := Nat.not_lt.mp far
    rw [need, blockPos_far far]
    simp only [beyond, true_and, and_true]
    refine (takeAddr_spec building le_rfl).bind ?_ (fun _ => False.elim)
    rintro din' mid (⟨between, first⟩ | ⟨full, empty, length, taken⟩)
    · refine (takeEntry_spec first.building first.mapped.positive entry).bind ?_
        (fun _ => False.elim)
      simp only [ensures_pure]
      simp only [first.entry_same]
      rintro x s' (⟨logged', second⟩ | ⟨full, empty, length, taken⟩)
      · exact .inl ⟨logged', first.entry second⟩
      · refine .inr ⟨?_, length, taken⟩
        rw [if_pos empty]
        have grown := first.freeblock
        omega
    · -- the indirect block itself lies behind the end of the image
      unfold takeEntry
      simp only [ensures_bind, ensures_rsect]
      refine ⟨fun inImage => by omega, fun _ => ?_⟩
      rw [if_pos empty]
      omega

end Building

end Xv6.Mkfs
