import Xv6.Mkfs.Inodes
import Xv6.Fs.Integrity

/-!
# The finished image

The steps of `main` in terms of file contents: each input file becomes an inode
that holds its bytes and an entry of the root directory.  At the end the size
of the root directory is rounded up past the next block boundary, which adds a
block that is not there when its entries fill their last block exactly, and the
bit map is written.
-/

namespace Xv6.Mkfs

open Exec Fs

def File.contents (file : File) : List UInt8 := (file.chunks.getD []).flatMap Chunk.bytes

structure Holds (s : Image) (i type : Nat) (content : List UInt8) : Prop where
  type : (s.dinode i).type = type
  size : (s.dinode i).size = content.length
  byte : ∀ k, s.byte i k = content.getD k 0

section Contents

variable {s mid s' : Image} {inum i kind : Nat} {p q content : List UInt8}

theorem Appended.refl (ok : Ok s) (inum : Nat) : Appended s s inum [] := by
  refine ⟨ok, rfl, fun _ _ _ => rfl, ?_, rfl, rfl⟩
  intro j k
  rw [if_neg]
  rintro ⟨_, lower, upper⟩
  simp only [List.length_nil] at upper
  omega

theorem Appended.size (appended : Appended s s' inum p) :
    (s'.dinode inum).size = (s.dinode inum).size + p.length := by rw [appended.inode]

theorem Appended.type (appended : Appended s s' inum p) :
    (s'.dinode inum).type = (s.dinode inum).type := by rw [appended.inode]

theorem Appended.trans (first : Appended s mid inum p) (second : Appended mid s' inum q) :
    Appended s s' inum (p ++ q) := by
  have size := first.size
  have length : (s.dinode inum).size + (p ++ q).length =
      (s.dinode inum).size + p.length + q.length := by rw [List.length_append, Nat.add_assoc]
  refine ⟨second.ok, ?_, ?_, ?_, ?_, second.freeinode.trans first.freeinode⟩
  · rw [second.inode, first.inode, length]
  · intro j small other
    rw [second.others j small other, first.others j small other]
  · intro j k
    rw [second.byte, first.byte, size, length]
    by_cases here : j = inum
    · simp only [here, true_and]
      by_cases late : (s.dinode inum).size + p.length ≤ k
      · rw [List.getD_append_right _ _ _ _ (by omega)]
        simp only [late, true_and, show (s.dinode inum).size ≤ k by omega,
          show ¬k < (s.dinode inum).size + p.length by omega, if_false, Nat.sub_add_eq]
      · simp only [late, if_false, show k < (s.dinode inum).size + p.length + q.length
          by omega, and_true, show k < (s.dinode inum).size + p.length by omega]
        split
        · rw [List.getD_append _ _ _ _ (by omega)]
        · rfl
    · simp only [here, false_and, if_false]
  · have early := first.freeblock
    have late := second.freeblock
    rw [size] at late
    rw [length]
    omega

theorem Holds.appended (holds : Holds s inum kind content) (appended : Appended s s' inum p) :
    Holds s' inum kind (content ++ p) := by
  refine ⟨appended.type.trans holds.type, ?_, ?_⟩
  · rw [appended.size, holds.size, List.length_append]
  · intro k
    rw [appended.byte, holds.size]
    by_cases early : k < content.length
    · rw [if_neg (by omega), List.getD_append _ _ _ _ early, holds.byte]
    · rw [List.getD_append_right _ _ _ _ (by omega)]
      split
      · rfl
      · rw [holds.byte, List.getD_eq_default _ _ (by omega), List.getD_eq_default _ _ (by omega)]

theorem Holds.other_appended (holds : Holds s i kind content) (small : i < NINODES)
    (other : i ≠ inum) (appended : Appended s s' inum p) : Holds s' i kind content := by
  have same := appended.others i small other
  refine ⟨same ▸ holds.type, same ▸ holds.size, ?_⟩
  intro k
  rw [appended.byte, if_neg (fun all => other all.1), holds.byte]

theorem Holds.allocated {new : Nat} (holds : Holds s i kind content) (small : i < NINODES)
    (other : i ≠ s.freeinode) (allocated : Allocated s s' new) : Holds s' i kind content := by
  have same := allocated.others i small other
  exact ⟨same ▸ holds.type, same ▸ holds.size, fun k => (allocated.byte i k).trans (holds.byte k)⟩

theorem Allocated.holds (room : s.freeinode < NINODES) (allocated : Allocated s s' kind) :
    Holds s' s.freeinode kind [] := by
  refine ⟨by rw [allocated.inode]; rfl, by rw [allocated.inode]; rfl, ?_⟩
  intro k
  have past : (s'.dinode s.freeinode).size ≤ k := by
    rw [allocated.inode]
    exact Nat.zero_le k
  rw [List.getD_nil]
  exact allocated.ok.zero s.freeinode room k past

theorem Holds.typed (holds : Holds s i kind content) (positive : kind ≠ 0) :
    (s.dinode i).type ≠ 0 := by
  rw [holds.type]
  exact positive

theorem copyFile_spec (inode : inum < NINODES) (ok : Ok s) (typed : (s.dinode inum).type ≠ 0)
    (chunks : List Chunk) :
    (copyFile inum chunks).Ensures s
      (fun _ s' => Appended s s' inum (chunks.flatMap Chunk.bytes))
      (fun _ => Overflows s.freeblock (s.dinode inum).size
        (chunks.flatMap Chunk.bytes).length) := by
  induction chunks generalizing s with
  | nil => exact Appended.refl ok inum
  | cons chunk rest ih =>
    unfold copyFile
    have total : (s.dinode inum).size + ((chunk :: rest).flatMap Chunk.bytes).length =
        (s.dinode inum).size + chunk.bytes.length + (rest.flatMap Chunk.bytes).length := by
      rw [List.flatMap_cons, List.length_append, Nat.add_assoc]
    refine (iappend_spec ok inode typed chunk.nonempty).bind ?_ ?_
    · intro _ mid first
      refine (ih first.ok (by rw [first.type]; exact typed)).mono ?_ ?_
      · intro _ s' second
        rw [List.flatMap_cons]
        exact first.trans second
      · intro _ overflows
        have taken := first.freeblock
        rw [first.size] at overflows
        unfold Overflows at overflows ⊢
        rw [total]
        rcases overflows with long | full
        · exact .inl long
        · exact .inr (by omega)
    · intro _ overflows
      unfold Overflows at overflows ⊢
      rw [total]
      have more : blocks ((s.dinode inum).size + chunk.bytes.length) ≤
          blocks ((s.dinode inum).size + chunk.bytes.length + (rest.flatMap Chunk.bytes).length) :=
        blocks_mono (Nat.le_add_right _ _)
      rcases overflows with long | full
      · exact .inl (long.trans_le (Nat.le_add_right _ _))
      · exact .inr (by omega)

end Contents

/-! ## The files -/

def entries (files : List File) : List UInt8 :=
  Dirent.encode ⟨ROOTINO, dot⟩ ++ Dirent.encode ⟨ROOTINO, dotdot⟩ ++
    files.zipIdx.flatMap fun (file, k) => Dirent.encode ⟨k + 2, file.name⟩

def blocksUsed (files : List File) : Nat :=
  nmeta + blocks (DESIZE * (files.length + 2)) +
    (files.map fun file => blocks file.contents.length).sum

/-- The files can be opened, their names are legal, and they fit. -/
structure Fits (files : List File) : Prop where
  names : ∀ file ∈ files, slash ∉ file.arg
  found : ∀ file ∈ files, file.chunks ≠ none
  sizes : ∀ file ∈ files, file.contents.length ≤ MAXFILE * BSIZE
  room : blocksUsed files ≤ FSSIZE

/-- The image holds the files and a root directory with their names. -/
structure Built (s : Image) (files : List File) : Prop where
  ok : Ok s
  freeinode : s.freeinode = files.length + 2
  root : Holds s ROOTINO T_DIR (entries files)
  file : ∀ k file, files[k]? = some file → Holds s (k + 2) T_FILE file.contents
  freeblock : s.freeblock = blocksUsed files

theorem length_entries (files : List File) :
    (entries files).length = DESIZE * (files.length + 2) := by
  have flat :
      (files.zipIdx.flatMap fun x : File × Nat => Dirent.encode ⟨x.2 + 2, x.1.name⟩).length =
      DESIZE * files.length := by
    rw [List.length_flatMap]
    simp only [Dirent.length_encode, List.map_const', List.sum_replicate, List.length_zipIdx,
      smul_eq_mul]
    ring
  simp only [entries, List.length_append, Dirent.length_encode]
  rw [flat]
  ring

theorem entries_snoc (files : List File) (file : File) :
    entries (files ++ [file]) =
      entries files ++ Dirent.encode ⟨files.length + 2, file.name⟩ := by
  simp [entries, List.zipIdx_append]

theorem blocksUsed_snoc (files : List File) (file : File) :
    blocksUsed (files ++ [file]) + blocks (DESIZE * (files.length + 2)) =
      blocksUsed files + blocks (DESIZE * (files.length + 2) + DESIZE) +
        blocks file.contents.length := by
  have next : DESIZE * ((files ++ [file]).length + 2) = DESIZE * (files.length + 2) + DESIZE := by
    rw [List.length_append, List.length_singleton]
    ring
  rw [blocksUsed, blocksUsed, next]
  simp
  omega

section Files

variable {s s' : Image} {files rest : List File} {file : File}

theorem Fits.left (fits : Fits (files ++ rest)) : Fits files := by
  refine ⟨fun file among => fits.names file (List.mem_append_left _ among),
    fun file among => fits.found file (List.mem_append_left _ among),
    fun file among => fits.sizes file (List.mem_append_left _ among), le_trans ?_ fits.room⟩
  have more : blocks (DESIZE * (files.length + 2)) ≤
      blocks (DESIZE * ((files ++ rest).length + 2)) := by
    refine blocks_mono (Nat.mul_le_mul_left _ ?_)
    rw [List.length_append]
    omega
  rw [blocksUsed, blocksUsed, List.map_append, List.sum_append]
  omega

theorem Built.root_size (built : Built s files) :
    (s.dinode ROOTINO).size = DESIZE * (files.length + 2) :=
  built.root.size.trans (length_entries files)

theorem Built.overflows (few : files.length + 2 < NINODES)
    (overflows : Overflows (blocksUsed files) (DESIZE * (files.length + 2)) DESIZE) :
    ¬Fits (files ++ [file]) := by
  intro fits
  have room := fits.room
  have used := blocksUsed_snoc files file
  rcases overflows with long | full
  · simp only [MAXFILE, NDIRECT, NINDIRECT, BSIZE, DESIZE, DIRSIZ, NINODES] at long few
    omega
  · omega

theorem addFile_spec (built : Built s files) (few : files.length + 2 < NINODES) :
    (addFile ROOTINO file).Ensures s (fun _ s' => Built s' (files ++ [file]))
      (fun _ => ¬Fits (files ++ [file])) := by
  have last : file ∈ files ++ [file] := by simp
  have room : s.freeinode < NINODES := by
    rw [built.freeinode]
    exact few
  unfold addFile
  split
  next bad =>
    exact fun fits => fits.names file last bad
  split
  next missing =>
    exact fun fits => fits.found file last missing
  rename_i chunks found
  have contents : chunks.flatMap Chunk.bytes = file.contents := by rw [File.contents, found]; rfl
  refine (ialloc_spec built.ok room (by decide) (by decide)).bind ?_ (fun _ never => never.elim)
  rintro inum first ⟨rfl, allocated⟩
  have root : Holds first ROOTINO T_DIR (entries files) :=
    built.root.allocated (by decide) (by rw [built.freeinode, ROOTINO]; omega) allocated
  have rootSize := root.size.trans (length_entries files)
  have entry : (Dirent.encode ⟨s.freeinode, file.name⟩).length = DESIZE := Dirent.length_encode _
  refine (iappend_spec allocated.ok (by decide) (root.typed (by decide))
    (List.length_pos_iff.mp (by rw [entry]; decide))).bind ?_ ?_
  · intro _ second appended
    have new : Holds second s.freeinode T_FILE [] :=
      (allocated.holds room).other_appended room (by rw [built.freeinode, ROOTINO]; omega) appended
    have before : second.freeblock + blocks (DESIZE * (files.length + 2)) =
        blocksUsed files + blocks (DESIZE * (files.length + 2) + DESIZE) := by
      have taken := appended.freeblock
      rwa [rootSize, entry, allocated.freeblock, built.freeblock] at taken
    have used := blocksUsed_snoc files file
    have empty : blocks 0 = 0 := by decide
    refine (copyFile_spec room appended.ok (new.typed (by decide)) chunks).mono ?_ ?_
    · intro _ s' copied
      rw [contents] at copied
      have taken := copied.freeblock
      rw [new.size] at taken
      refine ⟨copied.ok, ?_, ?_, ?_, ?_⟩
      · rw [copied.freeinode, appended.freeinode, allocated.freeinode, built.freeinode,
          List.length_append, List.length_singleton]
      · rw [entries_snoc, ← built.freeinode]
        exact (root.appended appended).other_appended (by decide)
          (by rw [built.freeinode, ROOTINO]; omega) copied
      · intro k older known
        rcases Nat.lt_or_ge k files.length with early | late
        · rw [List.getElem?_append_left early] at known
          have small : k + 2 < NINODES := by omega
          have apart : k + 2 ≠ s.freeinode := by
            rw [built.freeinode]
            omega
          exact (((built.file k older known).allocated small apart allocated).other_appended small
            (by rw [ROOTINO]; omega) appended).other_appended small apart copied
        · rw [List.getElem?_append_right late] at known
          obtain ⟨same, here⟩ : k - files.length = 0 ∧ file = older := by
            cases index : k - files.length with
            | zero => simpa [index] using known
            | succ n => simp [index] at known
          subst here
          rw [show k + 2 = s.freeinode by rw [built.freeinode]; omega]
          exact new.appended copied
      · rw [List.length_nil, Nat.zero_add] at taken
        omega
    · intro _ overflows fits
      rw [contents, new.size, List.length_nil] at overflows
      have room := fits.room
      rcases overflows with long | full
      · rw [Nat.zero_add] at long
        exact absurd (fits.sizes file last) (Nat.not_le.mpr long)
      · rw [Nat.zero_add] at full
        omega
  · intro _ overflows
    rw [entry, rootSize, allocated.freeblock, built.freeblock] at overflows
    exact Built.overflows few overflows

theorem addFiles_spec (built : Built s files) (few : files.length + rest.length + 2 ≤ NINODES) :
    (addFiles ROOTINO rest).Ensures s (fun _ s' => Built s' (files ++ rest))
      (fun _ => ¬Fits (files ++ rest)) := by
  induction rest generalizing s files with
  | nil =>
    rw [List.append_nil]
    exact built
  | cons file rest ih =>
    have assoc : files ++ file :: rest = files ++ [file] ++ rest := by simp
    rw [List.length_cons] at few
    rw [assoc]
    unfold addFiles
    refine (addFile_spec built (by omega)).bind ?_ (fun _ not fits => not fits.left)
    intro _ mid next
    refine ih next ?_
    rw [List.length_append, List.length_singleton]
    omega

end Files

/-! ## The first and the last steps -/

def blank : Image := { Image.empty with length := FSSIZE }.put 1 sbBlock

theorem wipe_spec {s : Image} (sectors : List Nat) (clear : ∀ b, s.sector b = zeroes) :
    (wipe sectors).Ensures s
      (fun _ s' => s' = { s with length := (sectors.map (· + 1)).foldl max s.length })
      (fun _ => False) := by
  induction sectors generalizing s with
  | nil => rfl
  | cons i rest ih =>
    unfold wipe
    rw [ensures_bind, ensures_wsect]
    have same : s.put i zeroes = { s with length := max s.length (i + 1) } := by
      rw [Image.put, Function.update_eq_self_iff.mpr (clear i).symm]
    rw [same]
    exact ih clear

theorem wipe_empty {n : Nat} {sectors : List Nat} (all : List.range n = sectors) :
    (wipe sectors).Ensures Image.empty (fun _ s' => s' = { Image.empty with length := n })
      (fun _ => False) := by
  subst all
  have length : ((List.range n).map (· + 1)).foldl max 0 = n := by
    induction n with
    | zero => rfl
    | succ n ih =>
      rw [List.range_succ, List.map_append, List.foldl_append, ih]
      exact Nat.max_eq_right (Nat.le_succ n)
  have wiped := wipe_spec (s := Image.empty) (List.range n) fun _ => rfl
  rwa [show Image.empty.length = 0 from rfl, length] at wiped

theorem blank_sector {b : Nat} (other : b ≠ 1) : blank.sector b = zeroes :=
  Function.update_of_ne other _ _

theorem blank_type {i : Nat} : (blank.dinode i).type = 0 := by
  have elsewhere : sb.iblock i ≠ 1 := (sb_ok.first.trans_le (sb.inodestart_le_iblock i)).ne'
  have zero : ∀ k < IPB, (zeroes.dinode k).type = 0 := by decide
  rw [Image.dinode, Superblock.dinode, blank_sector elsewhere]
  exact zero _ (Nat.mod_lt _ (by decide))

theorem blank_addr (i pos : Nat) : blank.addr i pos = 0 := by
  unfold Image.addr Fs.addr
  rw [if_neg]
  rintro ⟨inode, typed, _⟩
  rw [view_cur, view_dinode [] inode] at typed
  exact typed blank_type

theorem ok_blank : Ok blank := by
  have start := nmeta_eq
  have used : blank.freeblock = nmeta := rfl
  refine ⟨by decide, le_rfl, by decide, fun b above _ => blank_sector (by omega), ?_, ?_, ?_, ?_,
    le_rfl, by decide, ?_⟩
  · refine ⟨sb_ok, ?_, fun ip referenced => absurd referenced (lt_irrefl _),
      fun ip _ referenced => absurd referenced (lt_irrefl _), fun ip live => ?_, fun ip live => ?_,
      ?_, ?_, fun i pos mapped => absurd (blank_addr i pos) mapped,
      fun i _ pos _ mapped => absurd (blank_addr i pos) mapped⟩
    · rw [view_disk, Function.update_of_ne (by decide)]
      decide
    · exact absurd live (view_not_live ip)
    · exact absurd live (view_not_live ip)
    · intro i inode typed
      rw [view_cur, view_dinode [] inode] at typed
      exact absurd blank_type typed
    · intro b below
      rw [view_sb, datastart_eq] at below
      rw [used_view _ _ (by rw [FSSIZE]; omega), used]
      exact decide_eq_true below
  · intro i _ typed
    exact absurd blank_type typed
  · intro i _ k _
    unfold Image.byte Fs.byte
    exact if_pos (blank_addr i _)
  · intro b lower below
    exact absurd below (Nat.not_lt.mpr lower)
  · intro i _
    have first : blank.freeinode = 1 := rfl
    rw [first]
    exact iff_of_false (fun typed => typed blank_type) (by omega)

theorem makeRoot_spec :
    makeRoot.Ensures blank (fun rootino s' => rootino = ROOTINO ∧ Built s' [])
      (fun _ => False) := by
  have short : ∀ freeblock off, freeblock ≤ nmeta + 1 → off ≤ DESIZE →
      ¬Overflows freeblock off DESIZE := by
    rintro freeblock off low small (long | full)
    · simp only [MAXFILE, NDIRECT, NINDIRECT, BSIZE, DESIZE, DIRSIZ] at long small
      omega
    · rw [nmeta_eq] at low
      simp only [DESIZE, DIRSIZ, FSSIZE] at full small
      rw [blocks_short (by omega), blocks_short (by omega)] at full
      omega
  have entry : ∀ name, (Dirent.encode ⟨ROOTINO, name⟩).length = DESIZE :=
    fun _ => Dirent.length_encode _
  have some : ∀ name, Dirent.encode ⟨ROOTINO, name⟩ ≠ [] :=
    fun name => List.length_pos_iff.mp (by rw [entry]; decide)
  unfold makeRoot
  refine (ialloc_spec ok_blank (by decide) (by decide) (by decide)).bind ?_ (fun _ never => never)
  rintro rootino first ⟨rfl, allocated⟩
  have made : Holds first ROOTINO T_DIR [] := allocated.holds (by decide)
  have used : first.freeblock = nmeta := allocated.freeblock
  rw [if_neg (show ¬blank.freeinode ≠ ROOTINO from fun other => other rfl)]
  refine (iappend_spec allocated.ok (by decide) (made.typed (by decide)) (some dot)).bind ?_ ?_
  · intro _ second one
    have oneSize : (second.dinode ROOTINO).size = DESIZE :=
      (made.appended one).size.trans (entry dot)
    have oneUsed := one.freeblock
    rw [made.size, entry, used] at oneUsed
    refine (iappend_spec one.ok (by decide) ((made.appended one).typed (by decide))
      (some dotdot)).bind ?_ ?_
    · intro _ s' two
      have twoUsed := two.freeblock
      rw [oneSize, entry] at twoUsed
      refine ⟨rfl, two.ok, ?_, (made.appended one).appended two, fun k file none => ?_, ?_⟩
      · rw [two.freeinode, one.freeinode, allocated.freeinode]
        rfl
      · exact absurd none (by simp)
      · simp only [blocksUsed, nmeta_eq, List.length_nil, List.map_nil, List.sum_nil, DESIZE,
          DIRSIZ] at oneUsed twoUsed ⊢
        rw [blocks_short (by omega), blocks_short (by omega)] at oneUsed twoUsed
        rw [blocks_short (by omega)]
        omega
    · intro _ overflows
      rw [oneSize, entry] at overflows
      refine short _ _ ?_ le_rfl overflows
      simp only [List.length_nil, DESIZE, DIRSIZ] at oneUsed
      rw [blocks_short (by omega), blocks_short (by omega)] at oneUsed
      omega
  · intro _ overflows
    rw [made.size, entry, used] at overflows
    exact short _ _ (Nat.le_succ _) (Nat.zero_le _) overflows

def rootSize (files : List File) : Nat := (DESIZE * (files.length + 2) / BSIZE + 1) * BSIZE

/-- What the root directory reads as in the end: its entries, then zeroes. -/
def padded (files : List File) : List UInt8 :=
  entries files ++ List.replicate (rootSize files - DESIZE * (files.length + 2)) 0

def stored (files : List File) (s : Image) (i : Nat) : Nat :=
  if i = ROOTINO then DESIZE * (files.length + 2) else (s.dinode i).size

structure Finished (s : Image) (files : List File) : Prop where
  bits : s.sector sb.bmapstart = bitmap s.freeblock
  freeblock : s.freeblock = blocksUsed files
  upper : s.freeblock ≤ FSSIZE
  freeinode : s.freeinode = files.length + 2
  owned : (s.view []).Owned
  allocated : ∀ i < NINODES, (s.dinode i).type ≠ 0 ↔ 1 ≤ i ∧ i < s.freeinode
  exact : ∀ i < NINODES, (s.dinode i).type ≠ 0 → Exact (s.view []) i (stored files s i)
  covered : ∀ b, nmeta ≤ b → b < s.freeblock → ∃ i pos, s.addr i pos = b
  root : Holds s ROOTINO T_DIR (padded files)
  file : ∀ k file, files[k]? = some file → Holds s (k + 2) T_FILE file.contents

theorem lt_rootSize (files : List File) : DESIZE * (files.length + 2) < rootSize files := by
  simp only [rootSize, BSIZE]
  omega

theorem length_padded (files : List File) : (padded files).length = rootSize files := by
  have more := lt_rootSize files
  rw [padded, List.length_append, length_entries, List.length_replicate]
  omega

theorem getD_padded (files : List File) (k : Nat) :
    (padded files).getD k 0 = (entries files).getD k 0 := by
  rw [padded]
  rcases Nat.lt_or_ge k (entries files).length with early | late
  · exact List.getD_append _ _ _ _ early
  · rw [List.getD_append_right _ _ _ _ late, List.getD_eq_default (entries files) _ late]
    rw [List.getD_eq_getElem?_getD, List.getElem?_replicate]
    split <;> rfl

section Finish

variable {s : Image} {files : List File}

theorem put_sector_self (sec : Nat) (buf : Block) : (s.put sec buf).sector sec = buf := by
  dsimp only [Image.put]
  rw [Function.update_self]

theorem put_freeblock (sec : Nat) (buf : Block) : (s.put sec buf).freeblock = s.freeblock := rfl

theorem view_put_bmapstart (buf : Block) (logged : List Nat) :
    (s.put sb.bmapstart buf).view logged = s.view logged := by
  unfold Image.view Image.put
  dsimp only
  rw [Function.update_idem]

theorem dinode_put_bmapstart (buf : Block) {i : Nat} (inode : i < NINODES) :
    (s.put sb.bmapstart buf).dinode i = s.dinode i := Superblock.dinode_update_ne (iblock_ne inode)

theorem Building.resize {inum size : Nat} {din d : Dinode} (building : Building s inum din [])
    (inode : inum < NINODES) (bounded : size ≤ MAXFILE * BSIZE)
    (new : d = { din with size := size }) :
    ((s.putInode inum d).view []).Owned ∧
    (∀ j, (s.putInode inum d).dinode j = if j = inum then d else s.dinode j) ∧
    (∀ j pos, (s.putInode inum d).addr j pos = (s.openView inum din []).addr j pos) ∧
    ∀ j k, (s.putInode inum d).byte j k = (s.openView inum din []).byte j k := by
  have typed : d.type ≠ 0 := new ▸ building.type
  have range : d.InRange := new ▸ building.range_size bounded
  have fits : d.size ≤ MAXFILE * BSIZE := new ▸ bounded
  have addrs : d.addrs = din.addrs := by rw [new]
  have same := building.owned.store_header building.live range typed fits
    (by rw [openView_copy]; exact addrs)
  rw [store_openView inode] at same
  have dinodes : ∀ j, (s.putInode inum d).dinode j = if j = inum then d else s.dinode j :=
    dinode_putInode range
  have closed := (building.putInode inode typed same.owned).closed inode
    ((dinodes inum).trans (if_pos rfl))
  refine ⟨closed.owned.withLog, dinodes, fun j pos => ?_, fun j k => ?_⟩
  · exact (closed.addr j pos).trans (same.addr j pos)
  · exact (closed.byte j k).trans (same.byte j k)

theorem Built.finished (built : Built s files) (few : files.length + 2 ≤ NINODES) :
    Finished ((s.putInode ROOTINO { s.dinode ROOTINO with size := rootSize files }).put sb.bmapstart
      (bitmap s.freeblock)) files := by
  have inode : ROOTINO < NINODES := by decide
  have bounded : rootSize files ≤ MAXFILE * BSIZE := by
    simp only [rootSize, MAXFILE, NDIRECT, NINDIRECT, BSIZE, DESIZE, DIRSIZ, NINODES] at few ⊢
    omega
  have opened := built.ok.opened inode
  have building := built.ok.building inode (built.root.typed (by decide))
  obtain ⟨owned, dinodes, addr, byte⟩ := building.resize inode bounded rfl
  have freeblock : (s.putInode ROOTINO { s.dinode ROOTINO with size := rootSize files }).freeblock =
    s.freeblock := rfl
  have freeinode : (s.putInode ROOTINO { s.dinode ROOTINO with size := rootSize files }).freeinode =
    s.freeinode := rfl
  generalize s.putInode ROOTINO { s.dinode ROOTINO with size := rootSize files } = s'
    at owned dinodes addr byte freeblock freeinode ⊢
  replace addr := fun j pos => (addr j pos).trans (opened.addr j pos)
  replace byte := fun j k => (byte j k).trans (opened.byte j k)
  have types : ∀ j, (s'.dinode j).type = (s.dinode j).type := by
    intro j
    rw [dinodes]
    split
    next here =>
      rw [here]
    · rfl
  have view : (s'.put sb.bmapstart (bitmap s.freeblock)).view [] = s'.view [] :=
    view_put_bmapstart _ _
  have entry : ∀ i < NINODES, (s'.put sb.bmapstart (bitmap s.freeblock)).dinode i = s'.dinode i :=
    fun i => dinode_put_bmapstart _
  refine ⟨?_, freeblock.trans built.freeblock, freeblock.trans_le built.ok.upper,
    freeinode.trans built.freeinode, view ▸ owned, ?_, ?_, ?_, ?_, ?_⟩
  · rw [put_sector_self, put_freeblock, freeblock]
  · intro i small
    rw [entry i small, types, built.ok.allocated i small, ← freeinode]
    exact Iff.rfl
  · intro i small isTyped pos
    rw [entry i small, types] at isTyped
    rw [view, stored, entry i small, dinodes]
    have exact := built.ok.exact i small isTyped pos
    have mapped : (s'.view []).addr i pos = (s.view []).addr i pos := addr i pos
    rw [mapped, exact]
    split
    next here =>
      rw [here, built.root_size]
    · rfl
  · intro b lower below
    obtain ⟨i, pos, held⟩ := built.ok.covered b lower (freeblock ▸ below)
    refine ⟨i, pos, ?_⟩
    rw [Image.addr, view]
    exact (addr i pos).trans held
  · refine ⟨?_, ?_, fun k => ?_⟩
    · rw [entry ROOTINO inode, types, built.root.type]
    · rw [entry ROOTINO inode, dinodes, if_pos rfl, length_padded]
    · rw [Image.byte, view, getD_padded, ← built.root.byte]
      exact byte ROOTINO k
  · intro k file known
    have small : k + 2 < NINODES := by
      have := (List.getElem?_eq_some_iff.mp known).1
      omega
    have held := built.file k file known
    refine ⟨?_, ?_, fun j => ?_⟩
    · rw [entry _ small, types, held.type]
    · rw [entry _ small, dinodes, if_neg (by rw [ROOTINO]; omega), held.size]
    · rw [Image.byte, view, ← held.byte]
      exact byte (k + 2) j

theorem main_spec (few : files.length + 2 ≤ NINODES) :
    (main files).Ensures Image.empty (fun _ s => Finished s files) (fun _ => ¬Fits files) := by
  unfold main
  -- opaque, so that the thousand steps are never run
  generalize all : List.range FSSIZE = sectors
  refine (wipe_empty all).bind ?_ (fun _ never => never.elim)
  rintro _ _ rfl
  rw [ensures_bind, ensures_wsect]
  refine makeRoot_spec.bind ?_ (fun _ never => never.elim)
  rintro rootino first ⟨rfl, built⟩
  refine (addFiles_spec built (by simpa using few)).bind ?_ (fun _ not => by simpa using not)
  intro _ second complete
  rw [List.nil_append] at complete
  rw [ensures_bind]
  unfold fixRoot
  rw [ensures_bind]
  refine rinode_spec (by decide) complete.ok.length ?_
  refine winode_spec (by decide) complete.ok.length _ ?_
  rw [ensures_bind, ensures_get]
  have bound := complete.ok.upper
  unfold balloc
  rw [if_neg]
  · rw [ensures_wsect, complete.root_size]
    exact complete.finished few
  · change ¬BSIZE * 8 ≤ second.freeblock
    simp only [BSIZE, FSSIZE] at bound ⊢
    omega

end Finish

end Xv6.Mkfs
