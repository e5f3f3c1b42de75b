import Xv6.Mkfs.Formed
import Xv6.Fs.Lookup

/-!
# The kernel reads the image

On the image `mkfs` has left, the kernel's `dirlookup` finds the inode of every
file, and its `readi` returns the bytes of the file.  A name that is not there
makes `dirlookup` read the root directory to its end.  If its last block is
missing, this takes a free block, and stops the kernel if there is none.
-/

namespace Xv6.Mkfs

open Exec Fs

/-! ## Entries -/

def dirents (files : List File) : List Dirent :=
  ⟨ROOTINO, dot⟩ :: ⟨ROOTINO, dotdot⟩ ::
    files.zipIdx.map fun (file, k) => ⟨k + 2, file.name⟩

theorem entries_eq (files : List File) : entries files = (dirents files).flatMap Dirent.encode := by
  rw [entries, dirents, List.flatMap_cons, List.flatMap_cons, List.flatMap_map, List.append_assoc]

theorem length_dirents (files : List File) : (dirents files).length = files.length + 2 := by
  simp [dirents]

theorem getD_flatMap {α : Type} {width : Nat} {record : α → List UInt8}
    (length : ∀ x, (record x).length = width) (xs : List α) {j k : Nat} (inside : k < width) :
    (xs.flatMap record).getD (width * j + k) 0 =
      (xs[j]?.map fun x => (record x).getD k 0).getD 0 := by
  induction xs generalizing j with
  | nil => simp
  | cons x rest ih =>
    rw [List.flatMap_cons]
    cases j with
    | zero =>
      rw [Nat.mul_zero, Nat.zero_add, List.getD_append _ _ _ _ (by rw [length]; exact inside)]
      rfl
    | succ j =>
      have past : width * (j + 1) + k = width + (width * j + k) := by ring
      rw [past, List.getD_append_right _ _ _ _ (by rw [length]; omega), length,
        Nat.add_sub_cancel_left, ih]
      rfl

theorem map_getD_self {n : Nat} {xs : List UInt8} (length : xs.length = n) :
    (List.range n).map (fun k => xs.getD k 0) = xs := by
  subst length
  refine List.ext_getElem (by simp) fun k inside _ => ?_
  rw [List.getElem_map, List.getElem_range, List.getD_eq_getElem]

theorem getElem?_dirents (files : List File) (k : Nat) :
    (dirents files)[k + 2]? = files[k]?.map fun file => ⟨k + 2, file.name⟩ := by
  simp [dirents, List.getElem?_zipIdx, Function.comp_def]

theorem File.noNul_name (file : File) : 0 ∉ file.name := by
  have noNul := file.noNul
  unfold File.name
  split
  next rest same =>
    rw [same] at noNul
    exact fun among => noNul (List.mem_cons_of_mem _ among)
  · exact noNul

theorem namecmp_take (name other : List UInt8) :
    namecmp name (other.take DIRSIZ) = true ↔ name.take DIRSIZ = other.take DIRSIZ := by
  rw [namecmp, beq_iff_eq, List.take_take, Nat.min_self]

theorem take_eq_short {name short : List UInt8} (same : name.take DIRSIZ = short)
    (length : short.length < DIRSIZ) : name = short := by
  rw [← same, List.length_take] at length
  rw [← same, List.take_of_length_le (by omega)]

/-- The names are different, and none is empty, `.` or `..`. -/
structure Named (files : List File) : Prop where
  distinct : (files.map fun file => file.name.take DIRSIZ).Nodup
  nonempty : ∀ file ∈ files, file.name.take DIRSIZ ≠ []
  ordinary : ∀ file ∈ files, file.name.take DIRSIZ ≠ dot ∧ file.name.take DIRSIZ ≠ dotdot

/-- The directory that is read has the entries of the root directory. -/
structure Reads (entry : Nat → Dirent) (files : List File) : Prop where
  self : entry 0 = ⟨ROOTINO, dot⟩
  parent : entry 1 = ⟨ROOTINO, dotdot⟩
  file : ∀ k file, files[k]? = some file → entry (k + 2) = ⟨k + 2, file.name.take DIRSIZ⟩
  rest : ∀ j, files.length + 2 ≤ j → (entry j).inum = 0

section Entries

variable {files : List File} {entry : Nat → Dirent} {name : List UInt8}

theorem reads_of_byte {fs : Fs} (few : files.length + 2 ≤ NINODES)
    (bytes : ∀ k, fs.byte ROOTINO k = (entries files).getD k 0) :
    Reads (fs.entry ROOTINO) files := by
  have spread : ∀ j, fs.entry ROOTINO j =
      ((dirents files)[j]?.map fun de => Dirent.decode de.encode).getD ⟨0, []⟩ := by
    intro j
    have byte : ∀ k ∈ List.range DESIZE, fs.byte ROOTINO (DESIZE * j + k) =
        ((dirents files)[j]?.map fun de => de.encode.getD k 0).getD 0 := by
      intro k inside
      rw [bytes, entries_eq, getD_flatMap Dirent.length_encode _ (List.mem_range.mp inside)]
    rw [Fs.entry, List.map_congr_left byte]
    cases (dirents files)[j]? with
    | none => decide
    | some de =>
      simp only [Option.map_some, Option.getD_some]
      rw [map_getD_self (Dirent.length_encode de)]
  refine ⟨?_, ?_, ?_, ?_⟩
  · exact (spread 0).trans (Dirent.decode_encode (by decide) (by decide))
  · exact (spread 1).trans (Dirent.decode_encode (by decide) (by decide))
  · intro k file known
    have small : k < files.length := (List.getElem?_eq_some_iff.mp known).1
    rw [spread, getElem?_dirents, known, Option.map_some, Option.map_some, Option.getD_some,
      Dirent.decode_encode _ file.noNul_name]
    simp only [NINODES] at few
    omega
  · intro j past
    rw [spread, List.getElem?_eq_none (by rw [length_dirents]; exact past)]
    rfl

theorem Reads.matches (reads : Reads entry files) {j : Nat} (below : j < files.length + 2)
    (ordinary : name.take DIRSIZ ≠ dot ∧ name.take DIRSIZ ≠ dotdot)
    (same : namecmp name (entry j).name = true) :
    ∃ k file, j = k + 2 ∧ files[k]? = some file ∧ name.take DIRSIZ = file.name.take DIRSIZ := by
  match j with
  | 0 =>
    rw [reads.self, namecmp, beq_iff_eq] at same
    exact absurd same ordinary.1
  | 1 =>
    rw [reads.parent, namecmp, beq_iff_eq] at same
    exact absurd same ordinary.2
  | k + 2 =>
    have inside : k < files.length := by omega
    have known := List.getElem?_eq_getElem inside
    rw [reads.file k _ known, namecmp_take] at same
    exact ⟨k, files[k], rfl, known, same⟩

theorem Reads.found (reads : Reads entry files) (named : Named files) {k : Nat} {file : File}
    (known : files[k]? = some file) (same : name.take DIRSIZ = file.name.take DIRSIZ) :
    seek entry name (List.range' 0 (files.length + 2)) = some (k + 2, DESIZE * (k + 2)) := by
  have inside := (List.getElem?_eq_some_iff.mp known).1
  have here := reads.file k file known
  have ordinary := same ▸ named.ordinary file (List.mem_of_getElem? known)
  have found : seek entry name (List.range' 0 (files.length + 2)) =
      some ((entry (k + 2)).inum, DESIZE * (k + 2)) := by
    refine seek_eq_some ?_ ?_ ?_ ?_
    · rw [List.mem_range'_1]
      omega
    · rw [here]
      exact Nat.succ_ne_zero _
    · rw [here, namecmp_take]
      exact same
    · intro j among matching
      have below : j < files.length + 2 := by
        rw [List.mem_range'_1] at among
        omega
      obtain ⟨other, twin, rfl, knownToo, alike⟩ := reads.matches below ordinary matching
      have insideToo := (List.getElem?_eq_some_iff.mp knownToo).1
      rw [List.getElem?_eq_getElem insideToo, Option.some.injEq] at knownToo
      rw [List.getElem?_eq_getElem inside, Option.some.injEq] at known
      have bound : k < (files.map fun file => file.name.take DIRSIZ).length := by simpa using inside
      have boundToo : other < (files.map fun file => file.name.take DIRSIZ).length := by
        simpa using insideToo
      have names : (files.map fun file => file.name.take DIRSIZ)[other] =
          (files.map fun file => file.name.take DIRSIZ)[k] := by
        rw [List.getElem_map, List.getElem_map, knownToo, known, ← alike, same]
      rw [named.distinct.getElem_inj_iff.mp names]
  rw [found, here]

theorem Reads.absent (reads : Reads entry files)
    (ordinary : name.take DIRSIZ ≠ dot ∧ name.take DIRSIZ ≠ dotdot)
    (none : ∀ file ∈ files, name.take DIRSIZ ≠ file.name.take DIRSIZ) :
    seek entry name (List.range' 0 (files.length + 2)) = .none := by
  refine seek_eq_none fun j among => .inr (Bool.eq_false_iff.mpr fun matching => ?_)
  have below : j < files.length + 2 := by
    rw [List.mem_range'_1] at among
    omega
  obtain ⟨k, file, _, known, same⟩ := reads.matches below ordinary matching
  exact none file (List.mem_of_getElem? known) same

end Entries

/-! ## The kernel -/

/-- The kernel runs on the image: nothing has been written yet, what the inode
cache holds was read from the disk, and `dp` is the root directory, locked by
the caller.  The caller holds no other inode, and an entry of the cache is free. -/
structure Mounted (s : Image) (fs : Fs) (dp : Slot) : Prop where
  disk : fs.disk = s.sector
  superblock : fs.sb = Superblock.decode (s.sector 1)
  inums : ∀ ip, 0 < (fs.icache ip).ref → (fs.icache ip).inum < fs.sb.ninodes
  unique : fs.Unique
  synced : ∀ ip, 0 < (fs.icache ip).ref → (fs.icache ip).valid = true →
    (fs.icache ip).copy = fs.dinode (fs.icache ip).inum ∧ (fs.icache ip).copy.type ≠ 0
  locked : fs.Locked dp
  root : (fs.icache dp).inum = ROOTINO
  idle : ∀ ip, ip ≠ dp → (fs.icache ip).busy = false
  unused : ∃ ip, (fs.icache ip).ref = 0

/-- Look up a name, lock the inode and read all of it: its type and contents. -/
def fetch (devsw : Devsw) (dp : Slot) (name : List UInt8) :
    FsM (Option (Nat × Option (List UInt8))) := do
  match ← dirlookup devsw dp name with
  | none => return none
  | some (inum, _) =>
    let ip ← iget inum
    ilock ip
    let inode ← getInode ip
    let bytes ← readi devsw ip 0 inode.copy.size
    return some (inode.copy.type, bytes)

/-- Through the root directory the kernel finds the files that were stored and
no others. -/
structure Agrees (devsw : Devsw) (fs : Fs) (dp : Slot) (files : List File) : Prop where
  found : ∀ file ∈ files, ∀ name, name.take DIRSIZ = file.name.take DIRSIZ →
    ∃ after, fetch devsw dp name fs = .ok (some (T_FILE, some file.contents), after)
  absent : ∀ name, 0 ∉ name → name ≠ dot → name ≠ dotdot →
    (∀ file ∈ files, name.take DIRSIZ ≠ file.name.take DIRSIZ) →
    ∃ after, dirlookup devsw dp name fs = .ok (none, after)

section Mounted

variable {s : Image} {files : List File} {fs : Fs} {dp : Slot}

theorem Mounted.sb (mounted : Mounted s fs dp) (finished : Finished s files) : fs.sb = sb := by
  have held := finished.owned.superblock
  rw [finished.disk] at held
  rw [mounted.superblock, held]
  rfl

theorem Mounted.settled (mounted : Mounted s fs dp) : fs.Settled :=
  fun ip referenced valid => (mounted.synced ip referenced valid).2

theorem Mounted.live (mounted : Mounted s fs dp) : fs.Live dp :=
  mounted.locked.live mounted.settled

theorem Mounted.cur (mounted : Mounted s fs dp) (finished : Finished s files) (i : Nat) :
    fs.cur i = s.dinode i := by
  have current := cur_of_synced mounted.unique
    (fun ip live => (mounted.synced ip live.1 live.2.1).1) i
  rw [current, Fs.dinode, mounted.sb finished, mounted.disk]
  rfl

theorem Mounted.addr (mounted : Mounted s fs dp) (finished : Finished s files) (i pos : Nat) :
    fs.addr i pos = s.addr i pos := by
  rw [← finished.addr, Fs.addr, mounted.cur finished, mounted.sb finished, mounted.disk]
  rfl

theorem Mounted.byte (mounted : Mounted s fs dp) (finished : Finished s files) (i k : Nat) :
    fs.byte i k = s.byte i k := by
  refine byte_congr (mounted.addr finished i _) fun _ => ?_
  rw [mounted.disk, finished.disk]

theorem Mounted.used (mounted : Mounted s fs dp) (finished : Finished s files) {b : Nat}
    (inside : b < FSSIZE) : fs.used b = decide (b < s.freeblock) := by
  rw [Fs.used, mounted.sb finished, mounted.disk, finished.used inside]

theorem Mounted.room (mounted : Mounted s fs dp) (finished : Finished s files) :
    fs.Room ↔ s.freeblock < FSSIZE := by
  have size : fs.sb.size = FSSIZE := by
    rw [mounted.sb finished]
    rfl
  unfold Room
  rw [size]
  constructor
  · rintro ⟨b, inside, free⟩
    rw [mounted.used finished inside, decide_eq_false_iff_not] at free
    omega
  · intro below
    exact ⟨s.freeblock, below, by rw [mounted.used finished below]; simp⟩

theorem Mounted.owned (mounted : Mounted s fs dp) (finished : Finished s files) : fs.Owned := by
  have image := finished.owned
  have addr : ∀ i pos, fs.addr i pos = (s.view []).addr i pos := mounted.addr finished
  have used : ∀ b, fs.used b = (s.view []).used b := by
    intro b
    rw [Fs.used, Fs.used, mounted.sb finished, mounted.disk, finished.disk]
    rfl
  refine ⟨mounted.sb finished ▸ sb_ok, ?_, mounted.inums, mounted.unique, fun ip live => ?_,
    fun ip live => ?_, ?_, ?_, ?_, ?_⟩
  · rw [mounted.disk, mounted.superblock]
  · rw [(mounted.synced ip live.1 live.2.1).1]
    exact Superblock.inRange_dinode _ _ _
  · rw [(mounted.synced ip live.1 live.2.1).1]
    exact Dinode.Extends.refl _
  · intro i inode
    rw [mounted.sb finished] at inode
    have bounded := image.bounded i inode
    rw [view_cur, view_dinode [] inode] at bounded
    rw [mounted.cur finished]
    exact bounded
  · intro b below
    rw [mounted.sb finished] at below
    rw [used]
    exact image.reserved b below
  · intro i pos mapped
    rw [addr] at mapped
    rw [addr, used, mounted.sb finished]
    exact image.area i pos mapped
  · intro i j pos other mapped same
    rw [addr] at mapped
    rw [addr, addr] at same
    exact image.once i j pos other mapped same

theorem Mounted.reads (mounted : Mounted s fs dp) (finished : Finished s files)
    (few : files.length + 2 ≤ NINODES) : Reads (fs.entry ROOTINO) files := by
  refine reads_of_byte few fun k => ?_
  rw [mounted.byte finished, finished.root.byte, getD_padded]

def slots (files : List File) : Nat := 32 * (DESIZE * (files.length + 2) / BSIZE + 1)

theorem Mounted.folder (mounted : Mounted s fs dp) (finished : Finished s files)
    (few : files.length + 2 ≤ NINODES) : fs.Folder dp (slots files) := by
  have copy : (fs.icache dp).copy = s.dinode ROOTINO := by
    rw [← mounted.cur finished, ← mounted.root, cur_of_live mounted.unique mounted.live]
  refine ⟨mounted.owned finished, mounted.live, ?_, ?_, ?_⟩
  · rw [copy, finished.root.type]
  · rw [copy, finished.root.size, length_padded]
    simp only [slots, rootSize, DESIZE, DIRSIZ, BSIZE]
    ring
  · simp only [slots, DESIZE, DIRSIZ, BSIZE, NDIRECT, NINODES] at few ⊢
    omega

theorem Mounted.last (mounted : Mounted s fs dp) (finished : Finished s files) :
    fs.addr ROOTINO (blockPos (DESIZE * (files.length + 2) / BSIZE)) = 0 ↔
      DESIZE * (files.length + 2) % BSIZE = 0 := by
  have exact := finished.exact ROOTINO (by decide) (finished.root.typed (by decide))
    (blockPos (DESIZE * (files.length + 2) / BSIZE))
  rw [occupied_blockPos, stored, if_pos rfl] at exact
  rw [mounted.addr finished]
  unfold Image.addr
  simp only [BSIZE] at exact ⊢
  omega

theorem offsets_slots (files : List File) :
    offsets 0 (DESIZE * slots files) =
      (List.range' 0 (files.length + 2)).map (DESIZE * ·) ++
        (List.range' (files.length + 2) (slots files - (files.length + 2))).map (DESIZE * ·) := by
  have more : files.length + 2 ≤ slots files := by
    simp only [slots, DESIZE, DIRSIZ, BSIZE]
    omega
  have count : (DESIZE * slots files + (DESIZE - 1)) / DESIZE - 0 = slots files := by
    simp only [DESIZE, DIRSIZ]
    omega
  have joined : List.range' 0 (files.length + 2) ++
      List.range' (0 + (files.length + 2)) (slots files - (files.length + 2)) =
      List.range' 0 (files.length + 2 + (slots files - (files.length + 2))) := List.range'_append_1
  rw [Nat.zero_add, Nat.add_sub_of_le more] at joined
  rw [offsets, count, ← List.map_append, joined]

/-- What `dirlookup` does on the root directory: it finds an entry in the blocks
that are there, or it goes on to the end. -/
theorem Mounted.dirlookup (devsw : Devsw) (mounted : Mounted s fs dp) (finished : Finished s files)
    (few : files.length + 2 ≤ NINODES) (name : List UInt8) :
    (dirlookup devsw dp name).Ensures fs
      (fun result after =>
        result = seek (fs.entry ROOTINO) name (List.range' 0 (files.length + 2)) ∧
          (result ≠ none ∧ after = fs ∨
            result = none ∧
              (DESIZE * (files.length + 2) % BSIZE = 0 → s.freeblock < FSSIZE)))
      (fun stop => stop = .panic .outOfBlocks ∧
        seek (fs.entry ROOTINO) name (List.range' 0 (files.length + 2)) = none ∧
        DESIZE * (files.length + 2) % BSIZE = 0 ∧ ¬s.freeblock < FSSIZE) := by
  have folder := mounted.folder finished few
  have reads := mounted.reads finished few
  have root := mounted.root
  have room := mounted.room finished
  have last := mounted.last finished
  unfold Xv6.dirlookup
  simp only [ensures_bind, ensures_getInode]
  rw [folder.type, if_neg (fun other => other rfl), folder.size, offsets_slots]
  refine dirlookupLoop_append devsw name ?_
  refine (dirlookupLoop_ensures devsw name folder ?_ ?_).mono ?_ (fun _ never => never.elim)
  · intro j among
    rw [List.mem_range'_1] at among
    simp only [slots, DESIZE, DIRSIZ, BSIZE]
    omega
  · intro j among
    rw [List.mem_range'_1] at among
    rw [root, HasEntry, mounted.addr finished]
    refine (finished.exact ROOTINO (by decide) (finished.root.typed (by decide)) _).mpr ?_
    rw [occupied_blockPos, stored, if_pos rfl]
    simp only [DESIZE, DIRSIZ, BSIZE]
    omega
  · rintro result after ⟨rfl, rfl⟩
    rw [root]
    cases early : seek (after.entry ROOTINO) name (List.range' 0 (files.length + 2)) with
    | some found => exact .inr ⟨found, rfl, rfl, .inl ⟨Option.some_ne_none _, rfl⟩⟩
    | none =>
      refine .inl ⟨rfl, ?_⟩
      have together : ∀ j ∈ List.range' (files.length + 2) (slots files - (files.length + 2)),
          DESIZE * j / BSIZE = DESIZE * (files.length + 2) / BSIZE := by
        intro j among
        rw [List.mem_range'_1] at among
        simp only [slots, DESIZE, DIRSIZ, BSIZE] at among ⊢
        omega
      refine (dirlookupLoop_unused devsw name folder ?_ together ?_).mono ?_ ?_
      · intro j among
        rw [List.mem_range'_1] at among
        omega
      · intro j among
        rw [List.mem_range'_1] at among
        rw [root]
        exact reads.rest j among.1
      · rintro result last' ⟨rfl, needs⟩
        rw [root, last, room] at needs
        refine ⟨rfl, .inr ⟨rfl, needs ?_⟩⟩
        intro empty
        have length := congrArg List.length empty
        simp only [List.length_range', List.length_nil, slots, DESIZE, DIRSIZ, BSIZE] at length
        omega
      · rintro _ ⟨stopped, missing, full⟩
        rw [root, last] at missing
        rw [room] at full
        exact ⟨stopped, rfl, missing, full⟩

/-- Looking for a name that is not there stops the kernel if the last block is
missing and the disk is full. -/
theorem Mounted.stops (devsw : Devsw) (mounted : Mounted s fs dp) (finished : Finished s files)
    (few : files.length + 2 ≤ NINODES) {name : List UInt8}
    (ordinary : name.take DIRSIZ ≠ dot ∧ name.take DIRSIZ ≠ dotdot)
    (other : ∀ file ∈ files, name.take DIRSIZ ≠ file.name.take DIRSIZ)
    (full : DESIZE * (files.length + 2) % BSIZE = 0) (used : ¬s.freeblock < FSSIZE) :
    Xv6.dirlookup devsw dp name fs = .error (.panic .outOfBlocks) := by
  have spec := mounted.dirlookup devsw finished few name
  have none := (mounted.reads finished few).absent ordinary other
  cases outcome : Xv6.dirlookup devsw dp name fs with
  | error stop => rw [(spec.of_error outcome).1]
  | ok returned =>
    obtain ⟨result, after⟩ := returned
    obtain ⟨same, ⟨some, _⟩ | ⟨_, needs⟩⟩ := spec.of_ok outcome
    · exact absurd (same.trans none) some
    · exact absurd (needs full) used

theorem Mounted.whole (mounted : Mounted s fs dp) (finished : Finished s files) {i : Nat}
    (inode : i < NINODES) (other : i ≠ ROOTINO) (typed : (s.dinode i).type ≠ 0) : fs.Whole i := by
  intro bn below
  rw [mounted.cur finished] at below
  rw [mounted.addr finished]
  refine (finished.exact i inode typed _).mpr (occupied_blockPos.mpr ?_)
  rwa [stored, if_neg other]

theorem Mounted.fetched (devsw : Devsw) (mounted : Mounted s fs dp) (finished : Finished s files)
    {i : Nat} (inode : i < NINODES) (other : i ≠ ROOTINO) {content : List UInt8}
    (holds : Holds s i T_FILE content) :
    (do
      let ip ← iget i
      ilock ip
      let inode ← getInode ip
      let bytes ← readi devsw ip 0 inode.copy.size
      return some (inode.copy.type, bytes) : FsM (Option (Nat × Option (List UInt8)))).Ensures fs
      (fun result _ => result = some (T_FILE, some content)) (fun _ => False) := by
  have owned := mounted.owned finished
  have typed := holds.typed (by decide)
  have inside : i < fs.sb.ninodes := by
    rw [mounted.sb finished]
    exact inode
  refine (iget_returns mounted.unused).bind ?_ (fun _ never => never)
  intro ip first got
  have idle : (first.icache ip).busy = false ∧ (first.icache ip).inum = i ∧
      0 < (first.icache ip).ref := by
    cases got with
    | hit referenced number =>
      rw [setSlot_icache_self]
      refine ⟨mounted.idle ip ?_, number, by dsimp only; omega⟩
      rintro rfl
      exact other (number.symm.trans mounted.root)
    | miss _ _ =>
      rw [setSlot_icache_self]
      exact ⟨rfl, rfl, Int.one_pos⟩
  obtain ⟨entry, same, settable, kept⟩ := got.settable owned inside
  have settled := mounted.settled.got got
  subst same
  have alike := settable.alike owned kept
  have current : (fs.setSlot ip entry).cur i = s.dinode i := by
    rw [alike.cur, mounted.cur finished]
  rw [ensures_bind]
  refine (ilock_returns alike.owned settled idle.2.2 idle.1
    (by rw [idle.2.1, current]; exact typed)).mono ?_ (fun _ never => never)
  rintro _ _ rfl
  have allocated : ((fs.setSlot ip entry).cur ((fs.setSlot ip entry).icache ip).inum).type ≠ 0 := by
    rw [idle.2.1, current]
    exact typed
  have again := alike.trans (alike.owned.alike_locked idle.2.2 allocated)
  have live := live_locked idle.2.2 allocated
  have number : (((fs.setSlot ip entry).setSlot ip ((fs.setSlot ip entry).lockedEntry ip)).icache
      ip).inum = i := by
    rw [setSlot_icache_self]
    exact idle.2.1
  have copy : (((fs.setSlot ip entry).setSlot ip ((fs.setSlot ip entry).lockedEntry ip)).icache
      ip).copy = s.dinode i := by
    rw [setSlot_icache_self]
    unfold lockedEntry
    dsimp only
    rw [idle.2.1, current]
  generalize (fs.setSlot ip entry).setSlot ip ((fs.setSlot ip entry).lockedEntry ip) = last
    at again live number copy ⊢
  have whole : last.Whole i := by
    intro bn below
    rw [again.cur] at below
    rw [again.addr]
    exact mounted.whole finished inode other typed bn below
  simp only [ensures_bind, ensures_getInode]
  rw [copy, holds.type, holds.size]
  refine (readi_ensures devsw again.owned live (by rw [copy, holds.type]; decide) 0
    content.length).mono ?_ ?_
  · rintro result after ⟨_, rfl, _⟩
    rw [ensures_pure, number, copy, holds.size, if_neg (by omega), readLength,
      if_neg (by omega)]
    have bytes : ∀ k ∈ List.range content.length, last.byte i (0 + k) = content.getD k 0 := by
      intro k _
      rw [again.byte, mounted.byte finished, holds.byte, Nat.zero_add]
    rw [List.map_congr_left bytes, map_getD_self rfl]
  · rintro _ ⟨_, holes⟩
    exact holes (number ▸ whole)

theorem Mounted.fetch (devsw : Devsw) (mounted : Mounted s fs dp) (finished : Finished s files)
    (few : files.length + 2 ≤ NINODES) (named : Named files) {k : Nat} {file : File}
    {name : List UInt8} (known : files[k]? = some file)
    (same : name.take DIRSIZ = file.name.take DIRSIZ) :
    (fetch devsw dp name).Ensures fs
      (fun result _ => result = some (T_FILE, some file.contents)) (fun _ => False) := by
  have found := (mounted.reads finished few).found named known same
  have inside := (List.getElem?_eq_some_iff.mp known).1
  unfold Mkfs.fetch
  refine (mounted.dirlookup devsw finished few name).bind ?_ ?_
  · rintro result after ⟨rfl, ⟨_, rfl⟩ | ⟨none, _⟩⟩
    · rw [found]
      exact mounted.fetched devsw finished (by omega) (by rw [ROOTINO]; omega)
        (finished.file k file known)
    · rw [found] at none
      exact absurd none (Option.some_ne_none _)
  · rintro _ ⟨_, none, _⟩
    rw [found] at none
    exact absurd none (Option.some_ne_none _)

end Mounted

def Image.rootSlot (s : Image) : Inode where
  inum := ROOTINO
  ref := 1
  busy := true
  valid := true
  copy := s.dinode ROOTINO

/-- The kernel after it has read the superblock and locked the root directory. -/
def Image.boot (s : Image) : Fs where
  disk := s.sector
  sb := Superblock.decode (s.sector 1)
  icache := Function.update (fun _ => unusedSlot) 0 s.rootSlot
  logged := []

theorem mounted_boot {s : Image} {files : List File} (finished : Finished s files) :
    Mounted s s.boot 0 := by
  have layout : s.boot.sb = sb := by
    have held := finished.owned.superblock
    rw [finished.disk] at held
    exact held
  have root : s.boot.icache 0 = s.rootSlot := by
    dsimp only [Image.boot]
    rw [Function.update_self]
  have others : ∀ ip, ip ≠ 0 → s.boot.icache ip = unusedSlot := by
    intro ip other
    dsimp only [Image.boot]
    rw [Function.update_of_ne other]
  have only : ∀ ip, 0 < (s.boot.icache ip).ref → ip = 0 := by
    intro ip referenced
    by_contra other
    rw [others ip other] at referenced
    exact absurd referenced (lt_irrefl _)
  refine ⟨rfl, rfl, ?_, ?_, ?_, ?_, by rw [root]; rfl, ?_, 1, by rw [others 1 (by decide)]; rfl⟩
  · intro ip referenced
    rw [only ip referenced, root, layout]
    exact (by decide : ROOTINO < NINODES)
  · intro ip jp first second _
    rw [only ip first, only jp second]
  · intro ip referenced _
    rw [only ip referenced, root, Fs.dinode, layout]
    exact ⟨rfl, finished.root.typed (by decide)⟩
  · unfold Locked
    rw [root]
    exact ⟨Int.one_pos, rfl, rfl⟩
  · intro ip other
    rw [others ip other]
    rfl

/-- The kernel and `mkfs` agree exactly if the root directory has all its blocks
or there is a block left for the one that is missing. -/
theorem agrees_iff {files : List File} {s : Image} {fs : Fs} {dp : Slot} (devsw : Devsw)
    (few : files.length < NINODES - 1) (named : Named files)
    (done : main files Image.empty = .ok ((), s)) (mounted : Mounted s fs dp) :
    Agrees devsw fs dp files ↔
      DESIZE * (files.length + 2) % BSIZE ≠ 0 ∨ blocksUsed files < FSSIZE := by
  have room : files.length + 2 ≤ NINODES := by omega
  have finished := (main_spec room).of_ok done
  have reads := mounted.reads finished room
  rw [← finished.freeblock]
  constructor
  · intro agrees
    have absent : ∀ file ∈ files, ([] : List UInt8).take DIRSIZ ≠ file.name.take DIRSIZ :=
      fun file among => (named.nonempty file among).symm
    obtain ⟨after, returns⟩ := agrees.absent [] (by simp) (by decide) (by decide) absent
    by_contra neither
    rw [not_or, not_not] at neither
    rw [mounted.stops devsw finished room (by decide) absent neither.1 neither.2] at returns
    cases returns
  · intro holds
    refine ⟨?_, ?_⟩
    · intro file among name same
      obtain ⟨k, known⟩ := List.mem_iff_getElem?.mp among
      obtain ⟨_, after, returns, rfl⟩ :=
        (mounted.fetch devsw finished room named known same).exists_ok
      exact ⟨after, returns⟩
    · intro name _ notDot notDotdot other
      have none := reads.absent ⟨?_, ?_⟩ other
      · obtain ⟨result, after, returns, same, _⟩ :=
          ((mounted.dirlookup devsw finished room name).mono (fun _ _ result => result)
            (fun _ stopped => holds.elim (fun partly => partly stopped.2.2.1)
              stopped.2.2.2)).exists_ok
        rw [none] at same
        exact ⟨after, same ▸ returns⟩
      · exact fun same => notDot (take_eq_short same (by decide))
      · exact fun same => notDotdot (take_eq_short same (by decide))

theorem name_letterFile (chunks : List Chunk) (k : Fin 30) :
    (letterFile chunks k).name.take DIRSIZ = [UInt8.ofNat (65 + k)] := by
  have plain : ∀ k : Fin 30, UInt8.ofNat (65 + k) ≠ 95 := by decide
  unfold File.name letterFile
  split
  next rest same =>
    exact absurd (List.head_eq_of_cons_eq same) (plain k)
  · rfl

theorem named_letters (chunks : Fin 30 → List Chunk) :
    Named ((List.finRange 30).map fun k => letterFile (chunks k) k) := by
  refine ⟨?_, ?_, ?_⟩
  · rw [List.map_map, show (fun file : File => file.name.take DIRSIZ) ∘
      (fun k => letterFile (chunks k) k) = fun k : Fin 30 => [UInt8.ofNat (65 + k.val)] from
      funext fun k => name_letterFile (chunks k) k]
    decide
  · refine List.forall_mem_map.mpr fun k _ => ?_
    rw [name_letterFile]
    exact List.cons_ne_nil _ _
  · have ordinary : ∀ k : Fin 30, [UInt8.ofNat (65 + k)] ≠ dot ∧
        [UInt8.ofNat (65 + k)] ≠ dotdot := by
      decide
    refine List.forall_mem_map.mpr fun k _ => ?_
    rw [name_letterFile]
    exact ordinary k

theorem agrees_iff_thirty :
    ∃ s, main thirtyFiles Image.empty = .ok ((), s) ∧ Agrees noDevices s.boot 0 thirtyFiles := by
  obtain ⟨s, done, finished⟩ := fits_thirty.finishes (by decide)
  exact ⟨s, done,
    (agrees_iff noDevices (by decide) (named_letters _) done (mounted_boot finished)).mpr
    (.inr (by decide))⟩

def fullChunk : Chunk := ⟨List.replicate BSIZE 0, by decide, by simp⟩

def fullSizes (k : Fin 30) : Nat := if k < 6 then 140 else if k = 6 then 93 else 0

/-- Thirty files that leave no block free. -/
def fullFiles : List File :=
  (List.finRange 30).map fun k => letterFile (List.replicate (fullSizes k) fullChunk) k

theorem length_fullFile (k : Fin 30) (count : Nat) :
    (letterFile (List.replicate count fullChunk) k).contents.length = count * BSIZE := by
  have length : fullChunk.bytes.length = BSIZE := List.length_replicate
  unfold File.contents letterFile
  dsimp only [Option.getD_some]
  rw [List.length_flatMap, List.map_replicate, List.sum_replicate, length, smul_eq_mul]

theorem blocksUsed_fullFiles : blocksUsed fullFiles = FSSIZE := by
  unfold blocksUsed fullFiles
  rw [List.map_map, show (fun file : File => blocks file.contents.length) ∘
    (fun k => letterFile (List.replicate (fullSizes k) fullChunk) k) =
      fun k => blocks (fullSizes k * BSIZE) from
    funext fun k => congrArg blocks (length_fullFile k _)]
  decide

theorem fits_fullFiles : Fits fullFiles := by
  refine ⟨?_, ?_, ?_, blocksUsed_fullFiles.le⟩
  · exact List.forall_mem_map.mpr fun k _ => slash_letterFile _ k
  · exact List.forall_mem_map.mpr fun k _ => Option.some_ne_none _
  · have sizes : ∀ k, fullSizes k ≤ MAXFILE := by decide
    refine List.forall_mem_map.mpr fun k _ => ?_
    rw [length_fullFile]
    exact Nat.mul_le_mul_right _ (sizes k)

/-- The entries of thirty files fill the block of the root directory, and the
files fill the disk: looking for the name `z` stops the kernel. -/
theorem lookup_stops_on_full_image :
    fullFiles.length < NINODES - 1 ∧ Named fullFiles ∧
    ∃ s, main fullFiles Image.empty = .ok ((), s) ∧ Mounted s s.boot 0 ∧
      dirlookup noDevices 0 [122] s.boot = .error (.panic .outOfBlocks) ∧
      ¬Agrees noDevices s.boot 0 fullFiles := by
  refine ⟨by decide, named_letters _, ?_⟩
  obtain ⟨s, done, finished⟩ := fits_fullFiles.finishes (by decide)
  have mounted := mounted_boot finished
  have absent : ∀ file ∈ fullFiles, ([122] : List UInt8).take DIRSIZ ≠ file.name.take DIRSIZ := by
    have other : ∀ k : Fin 30,
        ([122] : List UInt8).take DIRSIZ ≠ [UInt8.ofNat (65 + k)] := by decide
    refine List.forall_mem_map.mpr fun k _ => ?_
    rw [name_letterFile]
    exact other k
  have stops := mounted.stops noDevices finished (by decide) (by decide) absent (by decide)
    (by rw [finished.freeblock, blocksUsed_fullFiles]; exact lt_irrefl _)
  refine ⟨s, done, mounted, stops, fun agrees => ?_⟩
  obtain ⟨after, returns⟩ := agrees.absent [122] (by decide) (by decide) (by decide) absent
  rw [stops] at returns
  cases returns

end Xv6.Mkfs
