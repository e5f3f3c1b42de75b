import Mathlib.Data.Finset.Prod
import Xv6.Fs.Integrity
import Xv6.Fs.Lookup

/-!
# Free blocks

How many blocks an operation takes.  Filling a position of an inode takes one free
block each, so an operation that may fill the positions `span` does not run out of
blocks if there are as many free ones as positions of `span` are empty.
-/

namespace Xv6

open Exec Fs

def Fs.freeBlocks (fs : Fs) : Finset Nat :=
  (Finset.range fs.sb.size).filter fun b => fs.used b = false

/-- There are free blocks for the empty ones among these positions of inode `i`. -/
def Fs.Enough (fs : Fs) (i : Nat) (span : Finset Nat) : Prop :=
  (span.filter fun pos => fs.addr i pos = 0).card ≤ fs.freeBlocks.card

instance (fs : Fs) (i : Nat) (span : Finset Nat) : Decidable (fs.Enough i span) :=
  inferInstanceAs (Decidable (_ ≤ _))

/-- The positions that block `bn` of a file takes: its own and that of the indirect block. -/
def positions (bn : Nat) : Finset Nat :=
  if bn < NDIRECT then {blockPos bn} else {blockPos bn, NDIRECT}

/-- The positions that `n` bytes at `off` take. -/
def spanPositions (off n : Nat) : Finset Nat :=
  (Finset.Ico off (off + n)).biUnion fun k => positions (k / BSIZE)

theorem mem_positions {bn pos : Nat} :
    pos ∈ positions bn ↔ pos = blockPos bn ∨ pos = NDIRECT ∧ NDIRECT ≤ bn := by
  unfold positions
  by_cases direct : bn < NDIRECT
  · simp [direct, not_le.mpr direct]
  · simp [direct, not_lt.mp direct]

theorem positions_subset {off n bn : Nat} (span : InSpan off n bn) :
    positions bn ⊆ spanPositions off n := by
  obtain ⟨k, lower, upper, rfl⟩ := span
  exact Finset.subset_biUnion_of_mem (fun k => positions (k / BSIZE))
    (Finset.mem_Ico.mpr ⟨lower, upper⟩)

section Counting

variable {fs after : Fs} {ip : Slot} {span : Finset Nat}

/-- Every data block in use belongs to an inode. -/
def Fs.Marked (fs : Fs) : Prop :=
  ∀ b, fs.sb.datastart ≤ b → b < fs.sb.size → fs.used b = true → ∃ i pos, fs.addr i pos = b

theorem Fs.Grows.marked (grows : Grows fs after ip) (owned : fs.Owned) (marked : fs.Marked) :
    after.Marked := by
  intro b data inside used
  rw [grows.sb] at data inside
  rcases (grows.used b inside).mp used with before | ⟨pos, -, here⟩
  · obtain ⟨i, pos, rfl⟩ := marked b data inside before
    exact ⟨i, pos, grows.keep i pos (owned.ne_zero_of_data data inside)⟩
  · exact ⟨_, pos, here⟩

theorem Fs.Grows.fresh (grows : Grows fs after ip) (marked : fs.Marked) {pos : Nat}
    (new : New fs after (fs.icache ip).inum pos) :
    after.addr (fs.icache ip).inum pos ∈ fs.freeBlocks := by
  obtain ⟨data, inside, -⟩ := grows.owned.area _ _ new.2
  rw [grows.sb] at data inside
  refine Finset.mem_filter.mpr ⟨Finset.mem_range.mpr inside, Bool.eq_false_iff.mpr fun used => ?_⟩
  obtain ⟨j, other, held⟩ := marked _ data inside used
  have mapped : fs.addr j other ≠ 0 := held ▸ new.2
  have kept := (grows.keep j other mapped).trans held
  obtain ⟨rfl, rfl⟩ := grows.owned.once _ _ _ _ new.2 kept.symm
  exact mapped new.1

/-- The positions that have been filled. -/
def Fs.filled (fs after : Fs) (i : Nat) : Finset Nat :=
  (Finset.range NADDR).filter fun pos => fs.addr i pos = 0 ∧ after.addr i pos ≠ 0

theorem mem_filled {i pos : Nat} : pos ∈ fs.filled after i ↔ New fs after i pos := by
  refine ⟨fun member => (Finset.mem_filter.mp member).2,
    fun new => Finset.mem_filter.mpr ⟨Finset.mem_range.mpr ?_, new⟩⟩
  have mapped := new.2
  unfold Fs.addr at mapped
  split at mapped
  next inside =>
    exact inside.2.2
  · exact absurd rfl mapped

theorem Fs.Grows.card_freeBlocks (grows : Grows fs after ip) (marked : fs.Marked) :
    after.freeBlocks.card + (fs.filled after (fs.icache ip).inum).card = fs.freeBlocks.card := by
  have split : fs.freeBlocks = after.freeBlocks ∪
      (fs.filled after (fs.icache ip).inum).image (after.addr (fs.icache ip).inum) := by
    ext b
    simp only [Finset.mem_union, Finset.mem_image, mem_filled]
    constructor
    · intro member
      obtain ⟨inside, free⟩ := Finset.mem_filter.mp member
      rw [Finset.mem_range] at inside
      by_cases used : after.used b = true
      · rcases (grows.used b inside).mp used with before | new
        · rw [free] at before
          cases before
        · exact .inr new
      · refine .inl (Finset.mem_filter.mpr ⟨?_, by simpa using used⟩)
        rw [grows.sb]
        exact Finset.mem_range.mpr inside
    · rintro (member | ⟨pos, new, rfl⟩)
      · obtain ⟨inside, free⟩ := Finset.mem_filter.mp member
        rw [grows.sb] at inside
        refine Finset.mem_filter.mpr ⟨inside, Bool.eq_false_iff.mpr fun used => ?_⟩
        rw [(grows.used b (Finset.mem_range.mp inside)).mpr (.inl used)] at free
        cases free
      · exact grows.fresh marked new
  have apart : Disjoint after.freeBlocks
      ((fs.filled after (fs.icache ip).inum).image (after.addr (fs.icache ip).inum)) := by
    refine Finset.disjoint_left.mpr fun b member image => ?_
    obtain ⟨pos, isFilled, rfl⟩ := Finset.mem_image.mp image
    have used := (grows.owned.area _ _ (mem_filled.mp isFilled).2).2.2
    rw [(Finset.mem_filter.mp member).2] at used
    cases used
  rw [split, Finset.card_union_of_disjoint apart, Finset.card_image_of_injOn]
  intro pos isFilled other _ same
  exact (grows.owned.once _ _ _ _ (mem_filled.mp isFilled).2 same).2

theorem Fs.Grows.enough (grows : Grows fs after ip) (marked : fs.Marked)
    (enough : fs.Enough (fs.icache ip).inum span)
    (inside : ∀ pos, New fs after (fs.icache ip).inum pos → pos ∈ span) :
    after.Enough (after.icache ip).inum span := by
  have counted := grows.card_freeBlocks marked
  have apart : Disjoint (span.filter fun pos => after.addr (fs.icache ip).inum pos = 0)
      (fs.filled after (fs.icache ip).inum) := by
    refine Finset.disjoint_left.mpr fun pos empty isFilled => ?_
    exact (mem_filled.mp isFilled).2 (Finset.mem_filter.mp empty).2
  have both : (span.filter fun pos => after.addr (fs.icache ip).inum pos = 0) ∪
      fs.filled after (fs.icache ip).inum ⊆
        span.filter fun pos => fs.addr (fs.icache ip).inum pos = 0 := by
    refine Finset.union_subset (fun pos member => ?_) fun pos member => ?_
    · obtain ⟨among, empty⟩ := Finset.mem_filter.mp member
      refine Finset.mem_filter.mpr ⟨among, ?_⟩
      by_contra mapped
      exact mapped ((grows.keep _ _ mapped).symm.trans empty)
    · have new := mem_filled.mp member
      exact Finset.mem_filter.mpr ⟨inside pos new, new.1⟩
  have fewer := Finset.card_le_card both
  rw [Finset.card_union_of_disjoint apart] at fewer
  unfold Fs.Enough at enough ⊢
  rw [grows.inum]
  omega

theorem Fs.Enough.room {i pos : Nat} (enough : fs.Enough i span) (among : pos ∈ span)
    (empty : fs.addr i pos = 0) : fs.Room := by
  have some : 0 < fs.freeBlocks.card :=
    (Finset.card_pos.mpr ⟨pos, Finset.mem_filter.mpr ⟨among, empty⟩⟩).trans_le enough
  obtain ⟨b, member⟩ := Finset.card_pos.mp some
  obtain ⟨inside, free⟩ := Finset.mem_filter.mp member
  exact ⟨b, Finset.mem_range.mp inside, free⟩

end Counting

/-! ## Operations that do not run out of blocks -/

section Operations

variable {fs : Fs} {ip : Slot} {span : Finset Nat}

theorem bmapEntry_room (indirect e : Nat) :
    (bmapEntry indirect e).Ensures fs (fun _ _ => True) (fun _ => ¬fs.Room) := by
  unfold bmapEntry
  simp only [ensures_bind, ensures_bread]
  split
  · refine (balloc_ensures fs).bind (fun _ _ _ => trivial) ?_
    rintro stop ⟨_, marked⟩ ⟨b, bound, free⟩
    exact Bool.false_ne_true (free.symm.trans (marked b bound))
  · trivial

theorem bmapAddr_enough (owned : fs.Owned) (live : fs.Live ip) {k : Nat} (direct : k ≤ NDIRECT)
    (enough : fs.Enough (fs.icache ip).inum span) (among : k ∈ span) :
    (bmapAddr ip k).Ensures fs (fun b after => Mapped fs after ip k b fun _ => False)
      (fun _ => False) :=
  ((bmapAddr_ensures owned live direct).and (bmapAddr_room k)).mono
    (fun _ _ result => result.1)
    fun _ stopped => stopped.2 (enough.room among stopped.1.2)

theorem bmap_enough (owned : fs.Owned) (marked : fs.Marked) (live : fs.Live ip) {bn : Nat}
    (inside : bn < MAXFILE) (enough : fs.Enough (fs.icache ip).inum span)
    (among : positions bn ⊆ span) :
    (bmap ip bn).Ensures fs (fun _ _ => True) (fun _ => False) := by
  have self : blockPos bn ∈ span := among (mem_positions.mpr (.inl rfl))
  unfold bmap
  split
  next direct =>
    rw [blockPos, if_pos direct] at self
    exact (bmapAddr_enough owned live direct.le enough self).mono (fun _ _ _ => trivial)
      fun _ stopped => stopped
  next far =>
    have pointer : NDIRECT ∈ span := among (mem_positions.mpr (.inr ⟨rfl, not_lt.mp far⟩))
    have entry : bn - NDIRECT < NINDIRECT := by
      simp only [MAXFILE] at inside
      omega
    rw [if_pos entry]
    refine (bmapAddr_enough owned live le_rfl enough pointer).bind ?_ fun _ stopped => stopped
    intro indirect mid first
    have isLive := first.fills.live live
    have held := first.fills.owned.addr_direct isLive le_rfl
    rw [first.fills.inum, first.result] at held
    -- the indirect block has been counted, and there is one more for the block itself
    have left : mid.Enough (mid.icache ip).inum span := by
      refine first.fills.toGrows.enough marked enough fun pos new => ?_
      rcases first.only pos new with rfl | none
      · exact pointer
      · exact none.elim
    rw [held]
    refine ((bmapEntry_ensures first.fills.owned isLive (held ▸ first.positive) entry).and
      (bmapEntry_room _ _)).mono (fun _ _ _ => trivial) ?_
    rintro stop ⟨⟨-, empty⟩, full⟩
    rw [blockPos_far far] at self
    exact full (left.room self empty)

theorem writeiLoop_enough (owned : fs.Owned) (marked : fs.Marked) (live : fs.Live ip)
    {fuel off : Nat} {src : List UInt8} (inside : off + src.length ≤ MAXFILE * BSIZE)
    (enough : fs.Enough (fs.icache ip).inum span)
    (among : ∀ bn, InSpan off src.length bn → positions bn ⊆ span) :
    (writeiLoop ip fuel src off).Ensures fs (fun _ _ => True) (fun _ => False) := by
  induction fuel generalizing fs off src with
  | zero => trivial
  | succ fuel ih =>
    unfold writeiLoop
    split
    · trivial
    next some =>
      have positive := chunk_pos off (List.length_pos_iff.mpr some)
      have small := chunk_le off src.length
      have length : (src.take (chunk off src.length)).length = chunk off src.length := by
        rw [List.length_take, Nat.min_eq_left small]
      have rest : chunk off src.length + (src.drop (chunk off src.length)).length = src.length := by
        rw [List.length_drop]
        omega
      have first : InSpan off src.length (off / BSIZE) := ⟨off, le_rfl, by omega, rfl⟩
      have within := inSpan_lt first inside
      refine ((bmap_ensures owned live within).and
        (bmap_enough owned marked live within enough (among _ first))).bind ?_
        fun _ stopped => stopped.2
      rintro b mid ⟨mapped, -⟩
      simp only [ensures_bind, ensures_bread, ensures_logWrite]
      have turn := Wrote.turn some mapped
      refine ih turn.grows.owned (turn.grows.marked owned marked)
        (turn.grows.live live)
        (show off + chunk off src.length + (src.drop (chunk off src.length)).length ≤
          MAXFILE * BSIZE by omega)
        (turn.grows.enough marked enough fun pos new => ?_) fun bn spanned => ?_
      · obtain ⟨bn, spanned, -, position⟩ := turn.only pos new
        refine among bn ?_ (mem_positions.mpr position)
        rw [length] at spanned
        rw [← rest]
        exact inSpan_append.mpr (.inl spanned)
      · refine among bn ?_
        rw [← rest]
        exact inSpan_append.mpr (.inr spanned)

theorem writei_enough (devsw : Devsw) (owned : fs.Owned) (marked : fs.Marked) (live : fs.Live ip)
    (plain : (fs.icache ip).copy.type ≠ T_DEV) {off : Nat} {src : List UInt8}
    (enough : fs.Enough (fs.icache ip).inum (spanPositions off src.length)) :
    (writei devsw ip src off).Ensures fs (fun _ _ => True) (fun _ => False) := by
  unfold writei
  simp only [ensures_bind, ensures_getInode]
  rw [if_neg plain]
  split
  · trivial
  · split
    · trivial
    next fits =>
      refine (writeiLoop_enough owned marked live (not_lt.mp fits) enough
        fun bn spanned => positions_subset spanned).bind ?_ fun _ stopped => stopped
      intro last mid _
      simp only [ensures_bind, ensures_getInode]
      split
      · simp only [ensures_bind, ensures_setInode]
        exact ensures_iupdate.mpr trivial
      · trivial

end Operations

/-- The places in inodes that refer to a block. -/
def Fs.references (fs : Fs) : Finset (Nat × Nat) :=
  (Finset.range fs.sb.ninodes ×ˢ Finset.range NADDR).filter fun place => fs.addr place.1 place.2 ≠ 0

theorem Fs.mem_references {fs : Fs} {i pos : Nat} :
    (i, pos) ∈ fs.references ↔ fs.addr i pos ≠ 0 := by
  simp only [references, Finset.mem_filter, Finset.mem_product, Finset.mem_range,
    and_iff_right_iff_imp]
  intro mapped
  by_contra outside
  exact mapped (if_neg fun inside => outside ⟨inside.1, inside.2.2⟩)

/-- A data block is free or referred to once. -/
theorem Fs.Sound.card_freeBlocks {fs : Fs} (sound : fs.Sound) :
    fs.freeBlocks.card + fs.references.card = fs.sb.size - fs.sb.datastart := by
  have once : Set.InjOn (fun place => fs.addr place.1 place.2) (SetLike.coe fs.references) := by
    rintro ⟨i, pos⟩ first ⟨j, other⟩ _ same
    obtain ⟨rfl, rfl⟩ := sound.once i j pos other (mem_references.mp first) same
    rfl
  rw [← Finset.card_image_of_injOn once, ← Finset.card_union_of_disjoint, ← Nat.card_Ico]
  · congr 1
    ext b
    simp only [freeBlocks, Finset.mem_union, Finset.mem_filter, Finset.mem_range, Finset.mem_image,
      Prod.exists, mem_references, Finset.mem_Ico]
    constructor
    · rintro (⟨inside, free⟩ | ⟨i, pos, mapped, rfl⟩)
      · refine ⟨not_lt.mp fun low => ?_, inside⟩
        rw [sound.reserved b low] at free
        cases free
      · exact ⟨(sound.area i pos mapped).1, (sound.area i pos mapped).2.1⟩
    · rintro ⟨data, inside⟩
      cases marked : fs.used b with
      | false => exact .inl ⟨inside, rfl⟩
      | true =>
        obtain ⟨i, pos, rfl⟩ := sound.marked b data inside marked
        exact .inr ⟨i, pos, sound.ne_zero_of_data data inside, rfl⟩
  · rw [Finset.disjoint_left]
    intro b free held
    obtain ⟨⟨i, pos⟩, among, rfl⟩ := Finset.mem_image.mp held
    have used := (sound.area i pos (mem_references.mp among)).2.2
    simp [freeBlocks, used] at free

/-! ## Room in the log -/

/-- The number of blocks in the header from which on `log_write` stops with "too big a
transaction". -/
def Superblock.logCapacity (sb : Superblock) : Nat := min LOGSIZE (sb.nlog - 1)

/-- Every call of `log_write` between the two states has passed the test for room in the
header, which comes before the search for the block. -/
def Fs.Admitted (fs after : Fs) : Prop :=
  ∀ b earlier, b :: earlier <:+ after.logged → fs.logged.length ≤ earlier.length →
    earlier.toFinset.card < fs.sb.logCapacity

/-- The running transaction can take `n` more blocks. -/
def Fs.LogRoom (fs : Fs) (n : Nat) : Prop := fs.logged.toFinset.card + n < fs.sb.logCapacity

instance (fs : Fs) (n : Nat) : Decidable (fs.LogRoom n) := inferInstanceAs (Decidable (_ < _))

/-- The number of bit map blocks, `nbitmap` of `mkfs.c`. -/
def Superblock.bitmapBlocks (sb : Superblock) : Nat := sb.size / BPB + 1

/-- As many blocks as a write of `n` bytes at `off` may log: those of the file, the bit map and
the block of the inode. -/
def Superblock.writeBlocks (sb : Superblock) (off n : Nat) : Nat :=
  (spanPositions off n).card + sb.bitmapBlocks + 1

section LogRoom

variable {fs after : Fs} {ip : Slot} {off n : Nat} {src : List UInt8}

theorem Fs.LogRoom.mono {m : Nat} (room : fs.LogRoom n) (fewer : m ≤ n) : fs.LogRoom m :=
  (Nat.add_le_add_left fewer _).trans_lt room

theorem Fs.LogRoom.admitted (room : fs.LogRoom n) (new : Finset Nat) (few : new.card ≤ n)
    (logged : ∀ c ∈ after.logged, c ∈ fs.logged ∨ c ∈ new) : fs.Admitted after := by
  intro b earlier isSuffix _
  have subset : earlier.toFinset ⊆ fs.logged.toFinset ∪ new := by
    intro c member
    rw [Finset.mem_union, List.mem_toFinset]
    exact logged c (isSuffix.subset (List.mem_cons_of_mem b (List.mem_toFinset.mp member)))
  calc earlier.toFinset.card
      ≤ fs.logged.toFinset.card + new.card :=
        (Finset.card_le_card subset).trans (Finset.card_union_le _ _)
    _ ≤ fs.logged.toFinset.card + n := Nat.add_le_add_left few _
    _ < fs.sb.logCapacity := room

def Superblock.bitmap (sb : Superblock) : Finset Nat :=
  Finset.Ico sb.bmapstart (sb.bmapstart + sb.bitmapBlocks)

theorem Superblock.bblock_mem_bitmap {sb : Superblock} {b : Nat} (inside : b < sb.size) :
    sb.bblock b ∈ sb.bitmap := by
  have below : b / BPB ≤ sb.size / BPB := Nat.div_le_div_right inside.le
  rw [bitmap, Finset.mem_Ico, bblock, bitmapBlocks, Nat.add_comm]
  exact ⟨Nat.le_add_right _ _, Nat.add_lt_add_left (Nat.lt_succ_of_le below) _⟩

theorem Superblock.card_bitmap_insert (sb : Superblock) (c : Nat) :
    (insert c sb.bitmap).card ≤ sb.bitmapBlocks + 1 :=
  (Finset.card_insert_le _ _).trans (by rw [bitmap, Nat.card_Ico]; omega)

theorem Written.admitted (written : Written fs after ip off src)
    (room : fs.LogRoom (fs.sb.writeBlocks off src.length)) : fs.Admitted after := by
  have spanned : ∀ {bn pos}, InSpan off src.length bn → (pos = blockPos bn ∨
      pos = NDIRECT ∧ NDIRECT ≤ bn) → after.addr (fs.icache ip).inum pos ∈
        (spanPositions off src.length).image (after.addr (fs.icache ip).inum) :=
    fun span isPos => Finset.mem_image_of_mem _ (positions_subset span (mem_positions.mpr isPos))
  refine room.admitted ((spanPositions off src.length).image (after.addr (fs.icache ip).inum) ∪
    insert (fs.sb.iblock (fs.icache ip).inum) fs.sb.bitmap) ?_ ?_
  · have bits := fs.sb.card_bitmap_insert (fs.sb.iblock (fs.icache ip).inum)
    have data := Finset.card_image_le
      (s := spanPositions off src.length) (f := after.addr (fs.icache ip).inum)
    refine (Finset.card_union_le _ _).trans ?_
    unfold Superblock.writeBlocks
    omega
  · intro c member
    rw [Finset.mem_union, Finset.mem_insert]
    rcases (written.logged c).mp member with earlier | ⟨pos, fresh, touched⟩ | ⟨bn, span, rfl⟩ |
      ⟨-, rfl⟩
    · exact .inl earlier
    · obtain ⟨bn, span, -, isPos⟩ := written.only pos fresh
      rcases touched with rfl | rfl | ⟨entry, rfl⟩
      · exact .inr (.inl (spanned span isPos))
      · rw [written.sb]
        have inside := (written.owned.area _ pos fresh.2).2.1
        rw [written.sb] at inside
        exact .inr (.inr (.inr (Superblock.bblock_mem_bitmap inside)))
      · refine .inr (.inl (spanned span (.inr ⟨rfl, ?_⟩)))
        rcases isPos with rfl | ⟨rfl, indirect⟩
        · unfold blockPos at entry
          split at entry
          all_goals omega
        · exact indirect
    · exact .inr (.inl (spanned span (.inl rfl)))
    · exact .inr (.inr (.inl rfl))

theorem Truncated.admitted (truncated : Truncated fs after ip)
    (room : fs.LogRoom (fs.sb.bitmapBlocks + 1)) : fs.Admitted after := by
  refine room.admitted _ (fs.sb.card_bitmap_insert (fs.sb.iblock (fs.icache ip).inum)) ?_
  intro c member
  rw [Finset.mem_insert]
  rcases truncated.logged c member with earlier | ⟨b, inside, rfl⟩ | rfl
  · exact .inl earlier
  · exact .inr (.inr (Superblock.bblock_mem_bitmap inside))
  · exact .inr (.inl rfl)

end LogRoom

end Xv6
