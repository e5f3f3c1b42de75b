import Xv6.Fs.Room
import Xv6.Mkfs.Image

/-!
# Is the image well formed?

The disk that `mkfs` leaves is one the kernel's invariant holds of, with two
exceptions.  Nothing stops it from numbering inodes past `NINODES`; and when
the entries of the root directory fill their blocks exactly, its final size
covers one block more than it has.  The kernel keeps a well-formed image so,
and loses no block of it.
-/

namespace Xv6.Mkfs

open Exec Fs

/-- The disk is well formed, no bit beyond its end is set, and every inode that
was handed out lies in the inode area. -/
structure Formed (s : Image) : Prop where
  disk : WellFormed sb s.sector
  clear : ∀ b, sb.size ≤ b → b < BPB → sb.used s.sector b = false
  written : ∀ i, 1 ≤ i → i < s.freeinode →
    i < sb.ninodes ∧ sb.inodestart ≤ sb.iblock i ∧ sb.iblock i < sb.bmapstart ∧
      (sb.dinode s.sector i).type ≠ 0

/-! ## Inode numbers -/

section Numbers

variable {m : Nat}

theorem keeps_wsect (sec : Nat) (buf : Block) : Keeps (·.freeinode = m) (wsect sec buf) :=
  Keeps.modify fun _ holds => holds

theorem keeps_rsect (sec : Nat) : Keeps (·.freeinode = m) (rsect sec) := by
  refine Keeps.get.bind fun s => ?_
  split
  · exact Keeps.pure _
  · exact Keeps.fail _

theorem keeps_winode (inum : Nat) (ip : Dinode) : Keeps (·.freeinode = m) (winode inum ip) :=
  (keeps_rsect _).bind fun _ => keeps_wsect _ _

theorem keeps_rinode (inum : Nat) : Keeps (·.freeinode = m) (rinode inum) :=
  (keeps_rsect _).bind fun _ => Keeps.pure _

theorem keeps_takeBlock : Keeps (·.freeinode = m) takeBlock :=
  fun _ holds => ensures_takeBlock.mpr holds

theorem keeps_takeAddr (din : Dinode) (k : Nat) : Keeps (·.freeinode = m) (takeAddr din k) := by
  unfold takeAddr
  split
  · exact keeps_takeBlock.bind fun _ => Keeps.pure _
  · exact Keeps.pure _

theorem keeps_takeEntry (indirect k : Nat) : Keeps (·.freeinode = m) (takeEntry indirect k) := by
  refine (keeps_rsect _).bind fun buf => ?_
  split
  · exact keeps_takeBlock.bind fun _ => (keeps_wsect _ _).bind fun _ => Keeps.pure _
  · exact Keeps.pure _

theorem keeps_fileBlock (din : Dinode) (fbn : Nat) :
    Keeps (·.freeinode = m) (fileBlock din fbn) := by
  unfold fileBlock
  split
  · exact (keeps_takeAddr _ _).bind fun _ => Keeps.pure _
  · exact (keeps_takeAddr _ _).bind fun _ => (keeps_takeEntry _ _).bind fun _ => Keeps.pure _

theorem keeps_iappendLoop (fuel : Nat) (p : List UInt8) (off : Nat) (din : Dinode) :
    Keeps (·.freeinode = m) (iappendLoop fuel p off din) := by
  induction fuel generalizing p off din with
  | zero => exact Keeps.pure _
  | succ fuel ih =>
    unfold iappendLoop
    split
    · exact Keeps.pure _
    split
    · exact Keeps.fail _
    · exact (keeps_fileBlock _ _).bind fun _ => (keeps_rsect _).bind fun _ =>
        (keeps_wsect _ _).bind fun _ => ih _ _ _

theorem keeps_iappend (inum : Nat) (p : List UInt8) : Keeps (·.freeinode = m) (iappend inum p) :=
  (keeps_rinode _).bind fun _ => (keeps_iappendLoop _ _ _ _).bind fun _ => keeps_winode _ _

theorem keeps_copyFile (inum : Nat) (chunks : List Chunk) :
    Keeps (·.freeinode = m) (copyFile inum chunks) := by
  induction chunks with
  | nil => exact Keeps.pure _
  | cons chunk rest ih =>
    exact (keeps_iappend _ _).bind fun _ => ih

theorem keeps_wipe (sectors : List Nat) : Keeps (·.freeinode = m) (wipe sectors) := by
  induction sectors with
  | nil => exact Keeps.pure _
  | cons i rest ih => exact (keeps_wsect _ _).bind fun _ => ih

variable {s : Image}

theorem ialloc_freeinode (type : Nat) :
    (ialloc type).Ensures s (fun _ s' => s'.freeinode = s.freeinode + 1) (fun _ => True) := by
  unfold ialloc
  simp only [ensures_bind, ensures_get, ensures_modify, ensures_pure]
  exact keeps_winode _ _ _ rfl

theorem makeRoot_freeinode :
    makeRoot.Ensures s (fun _ s' => s'.freeinode = s.freeinode + 1) (fun _ => True) := by
  refine (ialloc_freeinode T_DIR).bind ?_ (fun _ _ => trivial)
  intro rootino mid next
  split
  · trivial
  · exact ((keeps_iappend _ _).bind
      fun _ => (keeps_iappend _ _).bind fun _ => Keeps.pure _) mid next

theorem addFile_freeinode (rootino : Nat) (file : File) :
    (addFile rootino file).Ensures s (fun _ s' => s'.freeinode = s.freeinode + 1)
      (fun _ => True) := by
  unfold addFile
  split
  · trivial
  split
  · trivial
  · refine (ialloc_freeinode T_FILE).bind ?_ (fun _ _ => trivial)
    exact fun inum mid next =>
      ((keeps_iappend _ _).bind fun _ => keeps_copyFile _ _) mid next

theorem addFiles_freeinode (rootino : Nat) (files : List File) :
    (addFiles rootino files).Ensures s (fun _ s' => s'.freeinode = s.freeinode + files.length)
      (fun _ => True) := by
  induction files generalizing s with
  | nil => exact rfl
  | cons file rest ih =>
    refine (addFile_freeinode rootino file).bind ?_ (fun _ _ => trivial)
    intro _ mid next
    refine ih.mono ?_ (fun _ _ => trivial)
    intro _ s' more
    rw [more, next, List.length_cons]
    omega

theorem main_freeinode (files : List File) :
    (main files).Ensures Image.empty (fun _ s => s.freeinode = files.length + 2)
      (fun _ => True) := by
  unfold main
  generalize List.range FSSIZE = sectors
  refine (keeps_wipe sectors _ rfl).bind ?_ (fun _ _ => trivial)
  intro _ first one
  rw [ensures_bind, ensures_wsect]
  refine makeRoot_freeinode.bind ?_ (fun _ _ => trivial)
  intro rootino second two
  refine (addFiles_freeinode rootino files).bind ?_ (fun _ _ => trivial)
  intro _ third three
  have total : third.freeinode = files.length + 2 := by
    rw [three, two]
    change first.freeinode + 1 + files.length = _
    rw [one]
    change 1 + 1 + files.length = _
    omega
  have rest : Keeps (·.freeinode = files.length + 2)
      (do fixRoot rootino; let s ← Exec.get; balloc s.freeblock) := by
    refine ((keeps_rinode _).bind fun _ => keeps_winode _ _).bind
      fun _ => Keeps.get.bind fun s => ?_
    unfold balloc
    split
    · exact Keeps.fail _
    · exact keeps_wsect _ _
  exact rest third total

end Numbers

/-! ## The disk -/

section Disk

variable {s : Image} {files : List File}

theorem Finished.disk (finished : Finished s files) : (s.view []).disk = s.sector := by
  rw [view_disk, Function.update_eq_self_iff, finished.bits]

theorem Finished.addr (finished : Finished s files) (i pos : Nat) :
    sb.addr s.sector i pos = s.addr i pos := by
  have entry : (s.view []).cur i = sb.dinode s.sector i := by
    rw [view_cur, Fs.dinode, finished.disk]
    rfl
  rw [Superblock.addr, Image.addr, Fs.addr, entry, finished.disk]
  rfl

theorem Finished.used (finished : Finished s files) {b : Nat} (inside : b < FSSIZE) :
    sb.used s.sector b = decide (b < s.freeblock) := by
  have bit := used_view s [] inside
  rwa [Fs.used, finished.disk] at bit

theorem stored_of_size {i bn : Nat} (finished : Finished s files)
    (partly : DESIZE * (files.length + 2) % BSIZE ≠ 0) (below : bn * BSIZE < (s.dinode i).size) :
    bn * BSIZE < stored files s i := by
  unfold stored
  split
  next here =>
    rw [here, finished.root.size, length_padded] at below
    simp only [rootSize, BSIZE] at below partly ⊢
    omega
  · exact below

theorem Finished.wellFormed (finished : Finished s files)
    (partly : DESIZE * (files.length + 2) % BSIZE ≠ 0) : WellFormed sb s.sector := by
  have start := nmeta_eq
  refine ⟨sb_ok, ?_, ?_, ?_, ?_, ?_⟩
  · have held := finished.owned.superblock
    rwa [finished.disk] at held
  · intro i small typed bn below
    rw [finished.addr]
    exact (finished.exact i small typed _).mpr
      (occupied_blockPos.mpr (stored_of_size finished partly below))
  · intro i pos mapped
    rw [finished.addr] at mapped ⊢
    obtain ⟨lower, upper, _⟩ := finished.owned.area i pos mapped
    exact ⟨lower, upper⟩
  · intro i j pos other mapped same
    rw [finished.addr] at mapped
    rw [finished.addr, finished.addr] at same
    exact finished.owned.once i j pos other mapped same
  · intro b inside
    rw [finished.used inside, decide_eq_true_eq, datastart_eq]
    constructor
    · intro below
      rcases Nat.lt_or_ge b nmeta with metadata | data
      · exact .inl metadata
      · obtain ⟨i, pos, held⟩ := finished.covered b data below
        exact .inr ⟨i, pos, (finished.addr i pos).trans held⟩
    · rintro (metadata | ⟨i, pos, held⟩)
      · have marked := finished.owned.reserved b (datastart_eq ▸ metadata)
        rwa [used_view s [] inside, decide_eq_true_eq] at marked
      · rw [finished.addr] at held
        subst held
        rcases Nat.eq_zero_or_pos (s.addr i pos) with zero | positive
        · have marked := finished.owned.reserved 0 (show 0 < sb.datastart by decide)
          rw [used_view s [] (by decide), decide_eq_true_eq] at marked
          rwa [zero]
        · obtain ⟨_, upper, marked⟩ := finished.owned.area i pos positive.ne'
          rwa [used_view s [] upper, decide_eq_true_eq] at marked

theorem Finished.formed (finished : Finished s files) (few : files.length + 2 ≤ NINODES)
    (partly : DESIZE * (files.length + 2) % BSIZE ≠ 0) : Formed s := by
  refine ⟨finished.wellFormed partly, ?_, ?_⟩
  · intro b past inside
    have upper := finished.upper
    have block : sb.bblock b = sb.bmapstart := by
      rw [Superblock.bblock, Nat.div_eq_of_lt inside, Nat.zero_add]
    rw [sb_size] at past
    rw [Superblock.used, block, finished.bits, Nat.mod_eq_of_lt inside, getBit_bitmap]
    · exact decide_eq_false (by omega)
    · simp only [BPB, BSIZE] at inside ⊢
      omega
  · intro i first last
    have small : i < NINODES := by
      rw [finished.freeinode] at last
      omega
    exact ⟨small, sb.inodestart_le_iblock i, iblock_lt small,
      (finished.allocated i small).mpr ⟨first, last⟩⟩

theorem Finished.hole (finished : Finished s files)
    (full : DESIZE * (files.length + 2) % BSIZE = 0) :
    DESIZE * (files.length + 2) / BSIZE * BSIZE < (s.dinode ROOTINO).size ∧
      s.addr ROOTINO (blockPos (DESIZE * (files.length + 2) / BSIZE)) = 0 := by
  constructor
  · rw [finished.root.size, length_padded]
    simp only [rootSize, BSIZE]
    omega
  · by_contra mapped
    have held := (finished.exact ROOTINO (by decide) (finished.root.typed (by decide)) _).mp mapped
    rw [occupied_blockPos, stored, if_pos rfl] at held
    simp only [BSIZE] at held full
    omega

theorem Finished.not_wellFormed (finished : Finished s files)
    (full : DESIZE * (files.length + 2) % BSIZE = 0) : ¬WellFormed sb s.sector := by
  intro formed
  obtain ⟨below, unmapped⟩ := finished.hole full
  refine formed.mapped ROOTINO (by decide) (finished.root.typed (by decide)) _ below ?_
  rw [finished.addr, unmapped]

end Disk

theorem Fits.finishes {files : List File} (fits : Fits files) (few : files.length + 2 ≤ NINODES) :
    ∃ s, main files Image.empty = .ok ((), s) ∧ Finished s files := by
  obtain ⟨_, s, done, finished⟩ :=
    ((main_spec few).mono (fun _ _ finished => finished) fun _ not => not fits).exists_ok
  exact ⟨s, done, finished⟩

/-- When `mkfs` finishes, the image is well formed exactly if there are inode
numbers for all files and the entries of the root directory leave room in its
last block. -/
theorem formed_iff {files : List File} {s : Image} (done : main files Image.empty = .ok ((), s)) :
    Formed s ↔ files.length + 2 ≤ NINODES ∧ DESIZE * (files.length + 2) % BSIZE ≠ 0 := by
  rcases Nat.lt_or_ge NINODES (files.length + 2) with many | few
  · have count := (main_freeinode files).of_ok done
    refine iff_of_false (fun formed => ?_) (fun both => by omega)
    obtain ⟨small, _⟩ := formed.written NINODES (by decide) (count ▸ many)
    exact absurd small (lt_irrefl _)
  · have finished := (main_spec few).of_ok done
    constructor
    · intro formed
      exact ⟨few, fun full => finished.not_wellFormed full formed.disk⟩
    · exact fun both => finished.formed few both.2

/-- A file whose name is one character, from `A` on. -/
def letterFile (chunks : List Chunk) (k : Fin 30) : File where
  arg := [UInt8.ofNat (65 + k)]
  noNul := by
    revert k
    decide
  chunks := some chunks

theorem slash_letterFile (chunks : List Chunk) (k : Fin 30) :
    slash ∉ (letterFile chunks k).arg := by
  have all : ∀ k : Fin 30, slash ∉ [UInt8.ofNat (65 + k)] := by decide
  exact all k

/-- A file of two bytes, and one of four that arrive in two pieces. -/
def twoFiles : List File :=
  [letterFile [⟨[104, 105], by decide, by decide⟩] ⟨0, by decide⟩,
    letterFile [⟨[1, 2, 3], by decide, by decide⟩, ⟨[4], by decide, by decide⟩] ⟨1, by decide⟩]

theorem fits_two : Fits twoFiles := ⟨by decide, by decide, by decide, by decide⟩

theorem formed_iff_two : ∃ s, main twoFiles Image.empty = .ok ((), s) ∧
    (sb.dinode s.sector 3).size = 4 ∧ Formed s := by
  obtain ⟨s, done, finished⟩ := fits_two.finishes (by decide)
  exact ⟨s, done, (finished.file 1 _ rfl).size, (formed_iff done).mpr (by decide)⟩

/-- The kernel keeps an image of `mkfs` well formed, whatever is done to its inodes, and loses no
block: at all times each data block is free or referred to once. -/
theorem mkfs_image_kept (devsw : Devsw) {files : List File} {s : Image} {fs : Fs}
    (done : main files Image.empty = .ok ((), s)) (few : files.length + 2 ≤ NINODES)
    (partly : DESIZE * (files.length + 2) % BSIZE ≠ 0)
    (reachable : Transition.Reachable (InodeOp.step devsw) (fun fs op => op.Allowed fs)
      (Fs.boot s.sector) fs) :
    WellFormed sb fs.disk ∧ fs.freeBlocks.card + fs.references.card = nblocks := by
  have formed := (((main_spec few).of_ok done).formed few partly).disk
  obtain ⟨isSb, sound, -⟩ := sound_of_reachable devsw formed reachable
  have count := sound.card_freeBlocks
  rw [isSb] at count
  exact ⟨isSb ▸ sound.wellFormed, count⟩

/-- The first file is overwritten from its second byte on, and the other is truncated. -/
theorem mkfs_image_kept_two : ∃ (s : Image) (fs : Fs), main twoFiles Image.empty = .ok ((), s) ∧
    ((fs.cur 2).size = 4 ∧ fs.byte 2 3 = 9 ∧ (fs.cur 3).size = 0) ∧
    WellFormed sb fs.disk ∧ fs.freeBlocks.card + fs.references.card = nblocks := by
  obtain ⟨s, done, _⟩ := fits_two.finishes (by decide)
  have ran : (match main twoFiles Image.empty with
      | .ok (_, s) => (Transition.run (InodeOp.step noDevices) (fun fs op => decide (op.Allowed fs))
          (Fs.boot s.sector)
          [.iget 2, .ilock 0, .iget 3, .writei 0 [7, 8, 9] 1, .ilock 1, .itrunc 1, .iunlock 0]).any
          (fun fs => decide ((fs.cur 2).size = 4 ∧ fs.byte 2 3 = 9 ∧ (fs.cur 3).size = 0))
      | .error _ => false) = true := by
    decide +kernel
  rw [done] at ran
  obtain ⟨fs, reachable, changed⟩ := Transition.Reachable.exists_of_run _
    (fun _ _ => of_decide_eq_true) _ _ ran
  exact ⟨s, fs, done, changed,
    mkfs_image_kept noDevices done (by decide) (by decide) reachable⟩

/-- Thirty empty files. -/
def thirtyFiles : List File := (List.finRange 30).map (letterFile [])

theorem fits_thirty : Fits thirtyFiles := by
  refine ⟨?_, ?_, ?_, by decide⟩
  · exact List.forall_mem_map.mpr fun k _ => slash_letterFile [] k
  · exact List.forall_mem_map.mpr fun k _ => Option.some_ne_none _
  · exact List.forall_mem_map.mpr fun k _ => Nat.zero_le _

/-- With thirty files the root directory has 32 entries, which fill one block;
its size becomes 1024, and it has no second block. -/
theorem thirty_files_not_formed :
    (thirtyFiles.map fun file => file.name.take DIRSIZ).Nodup ∧
    ∃ s, main thirtyFiles Image.empty = .ok ((), s) ∧
      (sb.dinode s.sector ROOTINO).size = 1024 ∧ sb.addr s.sector ROOTINO 1 = 0 ∧ ¬Formed s := by
  refine ⟨by decide, ?_⟩
  obtain ⟨s, done, finished⟩ := fits_thirty.finishes (by decide)
  refine ⟨s, done, ?_, ?_, fun formed => finished.not_wellFormed (by decide) formed.disk⟩
  · exact finished.root.size.trans (length_padded _)
  · rw [finished.addr]
    exact (finished.hole (by decide)).2

end Xv6.Mkfs
