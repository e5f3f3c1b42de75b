import Xv6.Lib.SlotMap
import Xv6.Fs.File
import Xv6.Fs.Frame

/-!
# Directories as tables

A directory is a table with a slot for each entry; an entry whose inode number is zero is a
free slot.  `dirlookup` finds the slot of a name, `dirlink` a free slot or the end of the
table, and writing an entry stores into one slot.
-/

namespace Xv6

open Exec Fs

def Dirent.slot (de : Dirent) : Option (List UInt8 × Nat) :=
  if de.inum = 0 then none else some (de.name, de.inum)

def Fs.dirent (fs : Fs) (dp : Slot) (j : Nat) : Dirent := (fs.alone dp).entry (fs.icache dp).inum j

def Fs.table (fs : Fs) (dp : Slot) : List (Option (List UInt8 × Nat)) :=
  (List.range ((fs.icache dp).copy.size / DESIZE)).map fun j => (fs.dirent dp j).slot

def Fs.binding (fs : Fs) (dp : Slot) : List UInt8 → Option Nat := SlotMap.lookup (fs.table dp)

/-- A locked directory that consists of whole entries. -/
structure Fs.DirAt (fs : Fs) (dp : Slot) : Prop where
  sound : (fs.alone dp).Sound
  live : fs.Live dp
  type : (fs.icache dp).copy.type = T_DIR
  aligned : DESIZE ∣ (fs.icache dp).copy.size

section Table

variable {fs after : Fs} {dp : Slot} {j : Nat}

theorem length_table : (fs.table dp).length = (fs.icache dp).copy.size / DESIZE := by
  simp [Fs.table]

theorem getElem?_table (inside : j < (fs.table dp).length) :
    (fs.table dp)[j]? = some (fs.dirent dp j).slot := by
  rw [length_table] at inside
  simp [Fs.table, inside]

theorem table_congr (same : after.alone dp = fs.alone dp) : after.table dp = fs.table dp := by
  have entry : (after.alone dp).icache dp = (fs.alone dp).icache dp := by rw [same]
  rw [alone_icache_self, alone_icache_self] at entry
  unfold Fs.table Fs.dirent
  rw [same, entry]

theorem Fs.DirAt.congr (dir : fs.DirAt dp) (same : after.alone dp = fs.alone dp) :
    after.DirAt dp := by
  have entry : (after.alone dp).icache dp = (fs.alone dp).icache dp := by rw [same]
  rw [alone_icache_self, alone_icache_self] at entry
  refine ⟨same ▸ dir.sound, ?_, ?_, ?_⟩
  · unfold Fs.Live
    rw [entry]
    exact dir.live
  · rw [entry]
    exact dir.type
  · rw [entry]
    exact dir.aligned

theorem Fs.DirAt.size (dir : fs.DirAt dp) :
    (fs.icache dp).copy.size = DESIZE * (fs.table dp).length := by
  rw [length_table, Nat.mul_div_cancel' dir.aligned]

theorem alone_live (live : fs.Live dp) : (fs.alone dp).Live dp := by
  unfold Fs.Live
  rw [alone_icache_self]
  exact live

theorem Fs.DirAt.current (dir : fs.DirAt dp) :
    (fs.alone dp).cur (fs.icache dp).inum = (fs.icache dp).copy := by
  have current := cur_of_live dir.sound.unique (alone_live dir.live)
  rwa [alone_icache_self] at current

theorem alone_only {ip jp : Slot} (positive : 0 < ((fs.alone ip).icache jp).ref) : jp = ip := by
  by_contra other
  rw [alone_icache_ne other] at positive
  exact lt_irrefl _ positive

theorem live_of_alone {ip jp : Slot} (live : (fs.alone ip).Live jp) : jp = ip ∧ fs.Live ip := by
  obtain rfl := alone_only live.ref_pos
  unfold Fs.Live at live
  rw [alone_icache_self] at live
  exact ⟨rfl, live⟩

theorem alone_unique {ip : Slot} : (fs.alone ip).Unique :=
  fun _ _ first second _ => (alone_only first).trans (alone_only second).symm

theorem Fs.Sound.alone_synced (sound : fs.Sound) {ip : Slot} (jp : Slot)
    (live : (fs.alone ip).Live jp) :
    ((fs.alone ip).icache jp).copy = (fs.alone ip).dinode ((fs.alone ip).icache jp).inum := by
  obtain ⟨rfl, was⟩ := live_of_alone live
  rw [alone_icache_self]
  exact sound.synced jp was

theorem Fs.Sound.alone_cur (sound : fs.Sound) (ip : Slot) (i : Nat) :
    (fs.alone ip).cur i = fs.cur i :=
  (cur_of_synced alone_unique (fun jp => sound.alone_synced jp) i).trans (sound.cur_eq i).symm

theorem Fs.Sound.alone_addr (sound : fs.Sound) (ip : Slot) (i pos : Nat) :
    (fs.alone ip).addr i pos = fs.addr i pos := by
  unfold Fs.addr
  rw [sound.alone_cur]
  rfl

theorem Fs.Sound.alone (sound : fs.Sound) (ip : Slot) : (fs.alone ip).Sound := by
  have cur := sound.alone_cur ip
  have addr := sound.alone_addr ip
  refine sound.of_same_addr ⟨sound.layout, sound.superblock, fun jp positive => ?_, alone_unique,
    fun jp isLive => ?_, fun jp isLive => ?_, fun i inside allocated => ?_, sound.reserved,
    fun i pos mapped => ?_, fun i k pos other mapped same => ?_⟩ rfl
    (fun jp => sound.alone_synced jp) addr (fun _ _ => rfl)
    fun i _ allocated _ => ⟨cur i ▸ allocated, by rw [cur]⟩
  · obtain rfl := alone_only positive
    rw [alone_icache_self] at positive ⊢
    exact sound.inums jp positive
  · obtain ⟨rfl, was⟩ := live_of_alone isLive
    rw [alone_icache_self]
    exact sound.range jp was
  · obtain ⟨rfl, was⟩ := live_of_alone isLive
    rw [alone_icache_self]
    exact sound.copies jp was
  · rw [cur] at allocated ⊢
    exact sound.bounded i inside allocated
  · rw [addr] at mapped ⊢
    exact sound.area i pos mapped
  · rw [addr] at mapped same
    rw [addr] at same
    exact sound.once i k pos other mapped same

end Table

/-! ## Reading entries -/

section Reading

variable (devsw : Devsw) {fs : Fs} {dp : Slot}

theorem length_name_dirent (j : Nat) : (fs.dirent dp j).name.length ≤ DIRSIZ :=
  (List.takeWhile_prefix _).length_le.trans (List.length_take_le _ _)

theorem namecmp_dirent {name : List UInt8} {j : Nat} :
    namecmp name (fs.dirent dp j).name = true ↔ (fs.dirent dp j).name = name.take DIRSIZ := by
  unfold namecmp
  rw [beq_iff_eq, List.take_of_length_le (length_name_dirent j)]
  exact eq_comm

theorem readDirent_dir {j : Nat} (message : Panic) (dir : fs.DirAt dp)
    (inside : j < (fs.table dp).length) :
    (readDirent devsw message dp (DESIZE * j)).Ensures fs
      (fun de after => de = fs.dirent dp j ∧ after = fs) (fun _ => False) := by
  have size := dir.size
  have current := dir.current
  have bound := dir.sound.size_le (alone_live dir.live)
  have within : DESIZE * j + DESIZE ≤ (fs.icache dp).copy.size := by
    rw [size, ← Nat.mul_succ]
    exact Nat.mul_le_mul_left _ inside
  rw [alone_icache_self] at bound
  have small : MAXFILE * BSIZE < 2 ^ 32 := by decide
  have plain : ((fs.alone dp).icache dp).copy.type ≠ T_DEV := by
    rw [alone_icache_self, dir.type]
    decide
  have start : DESIZE * j < 2 ^ 32 := by omega
  have read := readi_contents devsw dir.sound (alone_live dir.live) plain start
    (show DESIZE < 2 ^ 32 by decide)
  unfold readDirent
  refine ((confined_readi devsw _ _).ensures read).bind ?_ (fun _ never => never)
  rintro result after ⟨⟨same, rfl⟩, others⟩
  obtain rfl := eq_of_alone same others
  rw [alone_icache_self, length_contents, current, if_neg (by omega)]
  have whole :
      ((((after.alone dp).contents (after.icache dp).inum).drop (DESIZE * j)).take DESIZE) =
      (List.range DESIZE).map
        fun k => (after.alone dp).byte (after.icache dp).inum (DESIZE * j + k) := by
    rw [← map_byte_eq _ _ (by rw [current]; omega), readLength, if_neg (by rw [current]; omega)]
  rw [whole]
  dsimp only
  rw [if_pos (by simp)]
  exact ⟨rfl, rfl⟩

theorem dirlookupLoop_dir (name : List UInt8) (dir : fs.DirAt dp) {js : List Nat}
    (inside : ∀ j ∈ js, j < (fs.table dp).length) :
    (dirlookupLoop devsw dp name (js.map (DESIZE * ·))).Ensures fs
      (fun result after => result = seek (fs.dirent dp) name js ∧ after = fs) (fun _ => False) := by
  induction js with
  | nil => exact ⟨rfl, rfl⟩
  | cons j rest ih =>
    rw [List.forall_mem_cons] at inside
    have later := ih inside.2
    rw [List.map_cons]
    unfold dirlookupLoop seek
    refine (readDirent_dir devsw .dirlinkRead dir inside.1).bind ?_ (fun _ never => never)
    rintro de after ⟨rfl, rfl⟩
    split
    · exact later
    split
    · exact ⟨rfl, rfl⟩
    · exact later

theorem offsets_dir (dir : fs.DirAt dp) : offsets 0 (fs.icache dp).copy.size =
    (List.range (fs.table dp).length).map (DESIZE * ·) := by
  have size := dir.size
  unfold offsets
  rw [List.range_eq_range', size]
  congr 2
  simp only [DESIZE, DIRSIZ]
  omega

/-- What a search for a name returns. -/
def Looked (table : List (Option (List UInt8 × Nat))) (name : List UInt8) :
    Option (Nat × Nat) → Prop
  | none => SlotMap.lookup table (name.take DIRSIZ) = none
  | some (inum, off) => SlotMap.lookup table (name.take DIRSIZ) = some inum ∧
      ∃ j : Nat, off = DESIZE * j ∧ table[j]? = some (some (name.take DIRSIZ, inum))

theorem map_fst_seek (name : List UInt8) (js : List Nat) :
    (seek (fs.dirent dp) name js).map Prod.fst =
      SlotMap.lookup (js.map fun j => (fs.dirent dp j).slot) (name.take DIRSIZ) := by
  induction js with
  | nil => rfl
  | cons j rest ih =>
    unfold seek SlotMap.lookup
    rw [List.map_cons, List.findSome?_cons]
    by_cases free : (fs.dirent dp j).inum = 0
    · rw [if_pos free, Dirent.slot, if_pos free]
      exact ih
    · rw [if_neg free, Dirent.slot, if_neg free]
      by_cases same : namecmp name (fs.dirent dp j).name = true
      · rw [if_pos same, Option.bind_some, if_pos (namecmp_dirent.mp same)]
        rfl
      · have differs := mt namecmp_dirent.mpr same
        simp only [same, Bool.false_eq_true, if_false, Option.bind_some, differs]
        exact ih

theorem exists_of_seek {name : List UInt8} {js : List Nat} {inum off : Nat}
    (found : seek (fs.dirent dp) name js = some (inum, off)) :
    ∃ j ∈ js, off = DESIZE * j ∧ (fs.dirent dp j).slot = some (name.take DIRSIZ, inum) := by
  induction js with
  | nil => cases found
  | cons j rest ih =>
    unfold seek at found
    by_cases here : (fs.dirent dp j).inum ≠ 0 ∧ namecmp name (fs.dirent dp j).name = true
    · rw [if_neg here.1, if_pos here.2] at found
      obtain ⟨rfl, rfl⟩ := Prod.mk.inj (Option.some.inj found)
      refine ⟨j, List.mem_cons_self, rfl, ?_⟩
      rw [Dirent.slot, if_neg here.1, namecmp_dirent.mp here.2]
    · have later : seek (fs.dirent dp) name rest = some (inum, off) := by
        split at found
        · exact found
        next used =>
          rwa [if_neg fun same => here ⟨used, same⟩] at found
      obtain ⟨k, among, facts⟩ := ih later
      exact ⟨k, List.mem_cons_of_mem _ among, facts⟩

theorem looked_seek (name : List UInt8) :
    Looked (fs.table dp) name (seek (fs.dirent dp) name (List.range (fs.table dp).length)) := by
  have first := @map_fst_seek fs dp name (List.range (fs.table dp).length)
  have whole : (List.range (fs.table dp).length).map (fun j => (fs.dirent dp j).slot) =
      fs.table dp := by
    rw [length_table]
    rfl
  rw [whole] at first
  cases found : seek (fs.dirent dp) name (List.range (fs.table dp).length) with
  | none =>
    rw [found] at first
    exact first.symm
  | some result =>
    obtain ⟨inum, off⟩ := result
    rw [found] at first
    obtain ⟨j, among, isOff, slot⟩ := exists_of_seek found
    refine ⟨first.symm, j, isOff, ?_⟩
    rw [getElem?_table (List.mem_range.mp among), slot]

theorem dirlookup_dir (name : List UInt8) (dir : fs.DirAt dp) :
    (dirlookup devsw dp name).Ensures fs
      (fun result after => Looked (fs.table dp) name result ∧ after = fs) (fun _ => False) := by
  unfold dirlookup
  simp only [ensures_bind, ensures_getInode]
  rw [if_neg (not_not.mpr dir.type), offsets_dir dir]
  refine (dirlookupLoop_dir devsw name dir fun j => List.mem_range.mp).mono ?_
    (fun _ never => never)
  rintro result after ⟨rfl, rfl⟩
  exact ⟨looked_seek name, rfl⟩

/-- A free slot, or the end of a table that has none. -/
def Vacant (table : List (Option (List UInt8 × Nat))) (j : Nat) : Prop :=
  table[j]? = some none ∨ j = table.length ∧ none ∉ table

theorem dirlinkLoop_dir (dir : fs.DirAt dp) {js : List Nat}
    (inside : ∀ j ∈ js, j < (fs.table dp).length) (size : Nat) :
    (dirlinkLoop devsw dp size (js.map (DESIZE * ·))).Ensures fs
      (fun off after => after = fs ∧ ((∃ j ∈ js, off = DESIZE * j ∧ (fs.table dp)[j]? = some none) ∨
        off = DESIZE * ((size + (DESIZE - 1)) / DESIZE) ∧
          ∀ j ∈ js, (fs.table dp)[j]? ≠ some none)) (fun _ => False) := by
  induction js with
  | nil => exact ⟨rfl, .inr ⟨rfl, by simp⟩⟩
  | cons j rest ih =>
    rw [List.forall_mem_cons] at inside
    have slot := getElem?_table inside.1
    rw [List.map_cons]
    unfold dirlinkLoop
    refine (readDirent_dir devsw .dirlinkRead dir inside.1).bind ?_ (fun _ never => never)
    rintro de after ⟨rfl, rfl⟩
    split
    next free =>
      refine ⟨rfl, .inl ⟨j, List.mem_cons_self, rfl, ?_⟩⟩
      rw [slot, Dirent.slot, if_pos free]
    next used =>
      refine (ih inside.2).mono ?_ (fun _ never => never)
      rintro off after ⟨rfl, ⟨k, among, found⟩ | ⟨isEnd, others⟩⟩
      · exact ⟨rfl, .inl ⟨k, List.mem_cons_of_mem _ among, found⟩⟩
      · refine ⟨rfl, .inr ⟨isEnd, List.forall_mem_cons.mpr ⟨?_, others⟩⟩⟩
        rw [slot, Dirent.slot, if_neg used]
        simp

theorem dirlinkOffset_dir (dir : fs.DirAt dp) :
    (dirlinkOffset devsw dp).Ensures fs
      (fun off after => after = fs ∧ ∃ j, off = DESIZE * j ∧ Vacant (fs.table dp) j)
      (fun _ => False) := by
  have size := dir.size
  unfold dirlinkOffset
  simp only [ensures_bind, ensures_getInode]
  rw [offsets_dir dir]
  refine (dirlinkLoop_dir devsw dir (fun j => List.mem_range.mp) _).mono ?_ (fun _ never => never)
  rintro off after ⟨rfl, ⟨j, -, isOff, free⟩ | ⟨isOff, others⟩⟩
  · exact ⟨rfl, j, isOff, .inl free⟩
  · refine ⟨rfl, (after.table dp).length, isOff.trans ?_, .inr ⟨rfl, fun member => ?_⟩⟩
    · rw [size]
      simp only [DESIZE, DIRSIZ]
      omega
    · obtain ⟨j, free⟩ := List.mem_iff_getElem?.mp member
      exact others j (List.mem_range.mpr (List.getElem?_eq_some_iff.mp free).1) free

end Reading

/-! ## Writing an entry -/

section Writing

variable (devsw : Devsw) {fs after : Fs} {dp : Slot} {j : Nat} {src : List UInt8}

/-- As many blocks as writing an entry may log: its own, the indirect block, the bit map and the
block of the inode. -/
def Superblock.entryBlocks (sb : Superblock) : Nat := sb.bitmapBlocks + 3

theorem Superblock.writeBlocks_entry (sb : Superblock) (j : Nat) :
    sb.writeBlocks (DESIZE * j) DESIZE ≤ sb.entryBlocks := by
  -- an entry does not cross the end of a block
  have span : spanPositions (DESIZE * j) DESIZE ⊆ {blockPos (DESIZE * j / BSIZE), NDIRECT} := by
    intro pos among
    obtain ⟨k, range, isPos⟩ := Finset.mem_biUnion.mp among
    have block : k / BSIZE = DESIZE * j / BSIZE := by
      simp only [Finset.mem_Ico, DESIZE, DIRSIZ, BSIZE] at range ⊢
      omega
    rw [mem_positions, block] at isPos
    rw [Finset.mem_insert, Finset.mem_singleton]
    exact isPos.imp_right And.left
  have few := (Finset.card_le_card span).trans Finset.card_le_two
  unfold writeBlocks entryBlocks
  omega

/-- The blocks that the entry lies in are there, or can be had. -/
def Fs.EntryRoom (fs : Fs) (dp : Slot) (j : Nat) : Prop :=
  (fs.alone dp).Enough (fs.icache dp).inum (spanPositions (DESIZE * j) DESIZE)

theorem Fs.DirAt.entryRoom (dir : fs.DirAt dp) (inside : j < (fs.table dp).length) :
    fs.EntryRoom dp j := by
  have size := dir.size
  have whole := dir.sound.whole_of_live (alone_live dir.live)
  rw [alone_icache_self] at whole
  have none : ((spanPositions (DESIZE * j) DESIZE).filter
      fun pos => (fs.alone dp).addr (fs.icache dp).inum pos = 0) = ∅ := by
    refine Finset.filter_eq_empty_iff.mpr fun pos among empty => ?_
    obtain ⟨k, range, isPos⟩ := Finset.mem_biUnion.mp among
    rw [Finset.mem_Ico] at range
    have below : k / BSIZE * BSIZE < ((fs.alone dp).cur (fs.icache dp).inum).size := by
      rw [dir.current, size]
      have := Nat.div_mul_le_self k BSIZE
      have := Nat.mul_le_mul_left DESIZE inside
      rw [Nat.mul_succ] at this
      omega
    have mapped := whole _ below
    rcases mem_positions.mp isPos with rfl | ⟨rfl, indirect⟩
    · exact mapped empty
    · refine addr_pointer ?_ mapped empty
      rw [blockPos, if_neg (by omega)]
      omega
  unfold Fs.EntryRoom Fs.Enough
  rw [none]
  exact Nat.zero_le _

theorem Written.dirent (length : src.length = DESIZE)
    (written : Written (fs.alone dp) (after.alone dp) dp (DESIZE * j) src) (k : Nat) :
    after.dirent dp k = if k = j then Dirent.decode src else fs.dirent dp k := by
  have number := written.inum
  rw [alone_icache_self, alone_icache_self] at number
  have byte : ∀ m, (after.alone dp).byte (fs.icache dp).inum (DESIZE * k + m) =
      if DESIZE * j ≤ DESIZE * k + m ∧ DESIZE * k + m < DESIZE * j + DESIZE
      then src.getD (DESIZE * k + m - DESIZE * j) 0
      else (fs.alone dp).byte (fs.icache dp).inum (DESIZE * k + m) := by
    intro m
    rw [written.byte, alone_icache_self, length]
    simp only [true_and]
  unfold Fs.dirent Fs.entry
  rw [number]
  by_cases here : k = j
  · subst here
    rw [if_pos rfl]
    congr 1
    refine List.ext_getElem (by simp [length]) fun m inside _ => ?_
    have below : m < DESIZE := by simpa using inside
    rw [List.getElem_map, List.getElem_range, byte, if_pos (by omega), Nat.add_sub_cancel_left,
      List.getD_eq_getElem]
  · rw [if_neg here]
    congr 1
    refine List.map_congr_left fun m among => ?_
    have below := List.mem_range.mp among
    rw [byte, if_neg]
    simp only [DESIZE, DIRSIZ] at below ⊢
    omega

theorem Fs.DirAt.fits (dir : fs.DirAt dp) (inside : j < (fs.table dp).length) :
    DESIZE * (j + 1) ≤ MAXFILE * BSIZE := by
  have bound := dir.sound.size_le (alone_live dir.live)
  rw [alone_icache_self, dir.size] at bound
  exact (Nat.mul_le_mul_left DESIZE inside).trans bound

theorem writei_dir_rejected (dir : fs.DirAt dp) (length : src.length = DESIZE)
    (beyond : MAXFILE * BSIZE < DESIZE * (j + 1)) :
    (writei devsw dp src (DESIZE * j)).Ensures fs (fun result _ => result = none)
      (fun _ => False) := by
  unfold writei
  simp only [ensures_bind, ensures_getInode]
  rw [dir.type, if_neg (by decide)]
  split
  · rfl
  · rw [if_pos (by rw [length, ← Nat.mul_succ]; exact beyond)]
    rfl

theorem writei_dir (dir : fs.DirAt dp) (length : src.length = DESIZE)
    (inside : j ≤ (fs.table dp).length) (fits : DESIZE * (j + 1) ≤ MAXFILE * BSIZE) :
    (writei devsw dp src (DESIZE * j)).Ensures fs
      (fun result after => result = some DESIZE ∧ after.DirAt dp ∧
        SlotMap.Stored (fs.table dp) (after.table dp) j (Dirent.decode src).slot ∧
        (after.table dp).length = max (fs.table dp).length (j + 1) ∧
        (∀ i < fs.sb.ninodes, i ≠ (fs.icache dp).inum →
          (after.alone dp).contents i = (fs.alone dp).contents i) ∧
        (∀ ip, (after.icache ip).ref = (fs.icache ip).ref ∧
          (after.icache ip).inum = (fs.icache ip).inum) ∧
        (fs.LogRoom fs.sb.entryBlocks → fs.Admitted after))
      (fun _ => j = (fs.table dp).length ∧ ¬fs.EntryRoom dp j) := by
  have size := dir.size
  have start := Nat.mul_le_mul_left DESIZE inside
  have live := alone_live dir.live
  have plain : ((fs.alone dp).icache dp).copy.type ≠ T_DEV := by
    rw [alone_icache_self, dir.type]
    decide
  have accepted : ¬WriteRejected ((fs.alone dp).icache dp).copy.size (DESIZE * j) src.length := by
    unfold WriteRejected
    rw [alone_icache_self, length, size]
    rw [Nat.mul_succ] at fits
    omega
  refine ((confined_writei devsw src _).ensures
    (writei_accepted devsw dir.sound live plain accepted)).mono ?_ ?_
  · rintro result after ⟨⟨rfl, written, sound⟩, others⟩
    have copy := written.copy
    rw [alone_icache_self, alone_icache_self] at copy
    have grown : (after.icache dp).copy.size = DESIZE * max (fs.table dp).length (j + 1) := by
      rw [copy]
      dsimp only
      rw [length, size, ← Nat.mul_succ, Nat.mul_max_mul_left]
    have count : (after.table dp).length = max (fs.table dp).length (j + 1) := by
      rw [length_table, grown, Nat.mul_div_cancel_left _ (by decide)]
    have live' := written.live live
    unfold Fs.Live at live'
    rw [alone_icache_self] at live'
    refine ⟨by rw [length], ⟨sound, live', ?_, ⟨_, grown⟩⟩, ⟨?_, fun k other => ?_⟩, count,
      fun i below other => ?_, fun ip => ?_, fun room => ?_⟩
    · rw [copy]
      exact dir.type
    · rw [getElem?_table (by omega), written.dirent length, if_pos rfl]
    · by_cases within : k < (fs.table dp).length
      · rw [getElem?_table within, getElem?_table (by omega), written.dirent length, if_neg other]
      · rw [List.getElem?_eq_none (by omega), List.getElem?_eq_none (by omega)]
    · exact written.contents_other below (by rwa [alone_icache_self])
    · by_cases here : ip = dp
      · rw [here, copy]
        exact ⟨rfl, rfl⟩
      · rw [others ip here]
        exact ⟨rfl, rfl⟩
    · refine written.admitted ?_
      rw [length]
      exact room.mono (fs.sb.writeBlocks_entry j)
  · intro stop short
    rw [alone_icache_self, length] at short
    refine ⟨?_, short⟩
    by_contra within
    exact short (dir.entryRoom (by omega))

end Writing

end Xv6
