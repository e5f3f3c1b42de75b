import Xv6.Mkfs.View

/-!
# Appending to an inode

A file of a given size occupies exactly the positions its bytes lie in, and the
indirect block if it is long; so the number of blocks it takes is a function of
its size.  `iappend` keeps this, and it fails exactly when the size or the
number of blocks would pass its limit.
-/

namespace Xv6.Mkfs

open Exec Fs

/-- The number of blocks of a file of a given size, the indirect block included. -/
def blocks (size : Nat) : Nat :=
  (size + (BSIZE - 1)) / BSIZE + if NDIRECT * BSIZE < size then 1 else 0

/-- The positions that a file of a given size needs. -/
def Occupied (size pos : Nat) : Prop :=
  (∃ bn, blockPos bn = pos ∧ bn * BSIZE < size) ∨ pos = NDIRECT ∧ NDIRECT * BSIZE < size

/-- The inode has blocks at the positions its size needs and at no others. -/
def Exact (fs : Fs) (inum size : Nat) : Prop := ∀ pos, fs.addr inum pos ≠ 0 ↔ Occupied size pos

theorem blocks_short {size : Nat} (short : size ≤ 6144) : blocks size = (size + 511) / 512 := by
  rw [blocks, if_neg (by simp only [NDIRECT, BSIZE]; omega)]
  rfl

theorem blocks_long {size : Nat} (long : 6144 < size) : blocks size = (size + 511) / 512 + 1 := by
  rw [blocks, if_pos (by simp only [NDIRECT, BSIZE]; omega)]
  rfl

theorem blocks_mono {small large : Nat} (le : small ≤ large) : blocks small ≤ blocks large := by
  rcases Nat.lt_or_ge 6144 small with long | short
  · rw [blocks_long long, blocks_long (long.trans_le le)]
    omega
  · rcases Nat.lt_or_ge 6144 large with long | alsoShort
    · rw [blocks_short short, blocks_long long]
      omega
    · rw [blocks_short short, blocks_short alsoShort]
      omega

theorem occupied_blockPos {size bn : Nat} : Occupied size (blockPos bn) ↔ bn * BSIZE < size := by
  refine ⟨?_, fun below => .inl ⟨bn, rfl, below⟩⟩
  rintro (⟨other, same, below⟩ | ⟨clash, _⟩)
  · rwa [← blockPos_inj same]
  · exact absurd clash (blockPos_ne bn)

theorem occupied_pointer {size : Nat} : Occupied size NDIRECT ↔ NDIRECT * BSIZE < size := by
  refine ⟨?_, fun long => .inr ⟨rfl, long⟩⟩
  rintro (⟨bn, clash, _⟩ | ⟨_, long⟩)
  · exact absurd clash (blockPos_ne bn)
  · exact long

theorem occupied_mono {small large pos : Nat} (le : small ≤ large) (occupied : Occupied small pos) :
    Occupied large pos := by
  rcases occupied with ⟨bn, rfl, below⟩ | ⟨rfl, long⟩
  · exact .inl ⟨bn, rfl, below.trans_le le⟩
  · exact .inr ⟨rfl, long.trans_le le⟩

theorem n1_eq (off n : Nat) : min n ((off / BSIZE + 1) * BSIZE - off) = chunk off n := by
  simp only [chunk, BSIZE]
  omega

theorem offset_eq (off : Nat) : off - off / BSIZE * BSIZE = off % BSIZE := by
  simp only [BSIZE]
  omega

theorem chunk_bound {off n : Nat} (inside : off / BSIZE < MAXFILE) :
    off + chunk off n ≤ MAXFILE * BSIZE := by
  have top : (off / BSIZE + 1) * BSIZE ≤ MAXFILE * BSIZE :=
    Nat.mul_le_mul_right BSIZE (Nat.succ_le_of_lt inside)
  refine le_trans ?_ top
  simp only [chunk, BSIZE]
  omega

section Turn

variable {s s' : Image} {inum : Nat} {din din' : Dinode} {logged logged' : List Nat}

theorem Building.blocks_chunk (building : Building s inum din logged) {off n : Nat}
    (exact : Exact (s.openView inum din logged) inum off) (some : 0 < n) :
    blocks (off + chunk off n) = blocks off + need s inum din logged (off / BSIZE) := by
  have first : (s.openView inum din logged).addr inum (blockPos (off / BSIZE)) = 0 ↔
      off % BSIZE = 0 := by
    have occupied := exact (blockPos (off / BSIZE))
    rw [occupied_blockPos] at occupied
    simp only [BSIZE] at occupied ⊢
    omega
  have second : din.addr NDIRECT = 0 ↔ off ≤ NDIRECT * BSIZE := by
    have occupied := exact NDIRECT
    rw [occupied_pointer, building.addr_direct le_rfl] at occupied
    omega
  have positive := chunk_pos off some
  have taken : need s inum din logged (off / BSIZE) =
      (if off % 512 = 0 then 1 else 0) + if off = 6144 then 1 else 0 := by
    rw [need]
    simp only [first, second]
    congr 2
    simp only [BSIZE, NDIRECT, eq_iff_iff]
    omega
  rw [taken]
  simp only [chunk, BSIZE] at positive ⊢
  rcases Nat.lt_or_ge 6144 off with long | short
  · rw [blocks_long long, blocks_long (by omega)]
    split <;> split <;> omega
  · rw [blocks_short short]
    rcases Nat.lt_or_ge 6144 (off + min n (512 - off % 512)) with long | alsoShort
    · rw [blocks_long long]
      split <;> split <;> omega
    · rw [blocks_short alsoShort]
      split <;> split <;> omega

theorem Exact.chunk {fs after : Fs} {off n : Nat} (exact : Exact fs (fs.icache 0).inum off)
    (some : 0 < n) {p : List UInt8} (length : p.length = chunk off n)
    (wrote : Wrote fs after 0 off p) : Exact after (fs.icache 0).inum (off + chunk off n) := by
  have positive := chunk_pos off some
  have here : after.addr (fs.icache 0).inum (blockPos (off / BSIZE)) ≠ 0 :=
    wrote.mapped _ (by rw [length]; exact (inSpan_chunk some).mpr rfl)
  intro pos
  refine ⟨?_, ?_⟩
  · intro mapped
    by_cases old : fs.addr (fs.icache 0).inum pos = 0
    · obtain ⟨bn, span, _, place⟩ := wrote.only pos ⟨old, mapped⟩
      rw [length, inSpan_chunk some] at span
      subst span
      have below : off / BSIZE * BSIZE < off + Xv6.chunk off n := by
        simp only [BSIZE]
        omega
      rcases place with rfl | ⟨rfl, far⟩
      · exact occupied_blockPos.mpr below
      · refine occupied_pointer.mpr (lt_of_le_of_lt ?_ below)
        exact Nat.mul_le_mul_right _ far
    · exact occupied_mono (by omega) ((exact pos).mp old)
  · intro occupied
    by_cases before : Occupied off pos
    · rw [wrote.grows.keep _ _ ((exact pos).mpr before)]
      exact (exact pos).mpr before
    · -- only the block of the chunk is new, and the indirect block with it
      rcases occupied with ⟨bn, rfl, below⟩ | ⟨rfl, long⟩
      · have same : bn = off / BSIZE := by
          have above : ¬bn * BSIZE < off := fun low => before (.inl ⟨bn, rfl, low⟩)
          simp only [Xv6.chunk, BSIZE] at above below ⊢
          omega
        rw [same]
        exact here
      · have far : NDIRECT ≤ off / BSIZE := by
          have above : ¬NDIRECT * BSIZE < off := fun low => before (.inr ⟨rfl, low⟩)
          simp only [Xv6.chunk, BSIZE, NDIRECT] at above long ⊢
          omega
        rw [blockPos_far (Nat.not_lt.mpr far)] at here
        exact addr_pointer (by omega) here

/-- The bytes `p` have been appended at `off` to the inode in memory. -/
structure Appends (s s' : Image) (inum : Nat) (din din' : Dinode) (logged logged' : List Nat)
    (off : Nat) (p : List UInt8) : Prop where
  building : Building s' inum din' logged'
  wrote : Wrote (s.openView inum din logged) (s'.openView inum din' logged') 0 off p
  exact : Exact (s'.openView inum din' logged') inum (off + p.length)
  freeblock : s'.freeblock + blocks off = s.freeblock + blocks (off + p.length)
  freeinode : s'.freeinode = s.freeinode

/-- The bytes do not fit into a file, or their blocks not into the image. -/
def Overflows (freeblock off n : Nat) : Prop :=
  MAXFILE * BSIZE < off + n ∨ FSSIZE + blocks off < freeblock + blocks (off + n)

theorem Appends.nil (building : Building s inum din logged) {off : Nat}
    (exact : Exact (s.openView inum din logged) inum off) :
    Appends s s inum din din logged logged off [] :=
  ⟨building, Wrote.nil building.owned 0 off, exact, rfl, rfl⟩

theorem Appends.append {mid : Image} {din₁ : Dinode} {between : List Nat} {off next : Nat}
    {first second : List UInt8} (one : Appends s mid inum din din₁ logged between off first)
    (start : off + first.length = next)
    (two : Appends mid s' inum din₁ din' between logged' next second) :
    Appends s s' inum din din' logged logged' off (first ++ second) := by
  subst start
  have length : off + (first ++ second).length = off + first.length + second.length := by
    rw [List.length_append, Nat.add_assoc]
  refine ⟨two.building, one.wrote.append two.wrote, ?_, ?_, two.freeinode.trans one.freeinode⟩
  · rw [length]
    exact two.exact
  · rw [length]
    have early := one.freeblock
    have late := two.freeblock
    omega

theorem Advance.turn {off x : Nat} {p : List UInt8} (some : p ≠ [])
    (exact : Exact (s.openView inum din logged) inum off)
    (building : Building s inum din logged)
    (advance : Advance s s' inum din din' logged logged' (blockPos (off / BSIZE)) x
      (fun pos => pos = NDIRECT ∧ NDIRECT ≤ off / BSIZE) (need s inum din logged (off / BSIZE))) :
    x < FSSIZE ∧ Appends s
      (s'.put x (Bytes.setBytes (s'.sector x) (off % BSIZE) (p.take (chunk off p.length)))) inum din
      din' logged (x :: logged') off (p.take (chunk off p.length)) := by
  have positive : 0 < p.length := List.length_pos_iff.mpr some
  have length : (p.take (chunk off p.length)).length = chunk off p.length := by
    rw [List.length_take, Nat.min_eq_left (chunk_le _ _)]
  have result : (s'.openView inum din' logged').addr inum (blockPos (off / BSIZE)) = x := by
    have mapped := advance.mapped.result
    rwa [openView_inum] at mapped
  obtain ⟨data, below⟩ := advance.building.area (result ▸ advance.mapped.positive)
  rw [result] at data below
  have inside : x < FSSIZE := below.trans_le advance.building.upper
  have apart := data_ne_bmapstart data
  have wrote := Wrote.turn some advance.mapped
  rw [write_openView s' inum din' logged' apart, ← sector_eq apart] at wrote
  have grown := Exact.chunk ((openView_inum s inum din logged).symm ▸ exact) positive length wrote
  rw [openView_inum] at grown
  refine ⟨inside, ⟨advance.building.length_put inside, advance.building.lower,
    advance.building.upper, ?_, advance.building.type, wrote.grows.owned⟩, wrote, ?_, ?_,
    advance.freeinode⟩
  · intro b above bound
    have lower : s'.freeblock ≤ b := above
    change Function.update s'.sector x _ b = zeroes
    rw [Function.update_of_ne (by omega)]
    exact advance.building.fresh b lower bound
  · rw [length]
    exact grown
  · rw [length, building.blocks_chunk exact positive]
    have taken := advance.freeblock
    change s'.freeblock + _ = _
    omega

theorem iappendLoop_spec {fuel off : Nat} {p : List UInt8} (enough : p.length ≤ fuel)
    (building : Building s inum din logged)
    (exact : Exact (s.openView inum din logged) inum off) (bounded : off ≤ MAXFILE * BSIZE) :
    (iappendLoop fuel p off din).Ensures s
      (fun result s' => result.1 = off + p.length ∧ off + p.length ≤ MAXFILE * BSIZE ∧
        ∃ logged', Appends s s' inum din result.2 logged logged' off p)
      (fun _ => Overflows s.freeblock off p.length) := by
  induction fuel generalizing s din logged off p with
  | zero =>
    have nothing : p = [] := List.length_eq_zero_iff.mp (Nat.le_zero.mp enough)
    subst nothing
    exact ⟨rfl, bounded, logged, Appends.nil building exact⟩
  | succ fuel ih =>
    unfold iappendLoop
    split
    next nothing =>
      subst nothing
      exact ⟨rfl, bounded, logged, Appends.nil building exact⟩
    rename_i some
    have positive : 0 < p.length := List.length_pos_iff.mpr some
    split
    next outside =>
      have past : MAXFILE * BSIZE ≤ off := (Nat.le_div_iff_mul_le (by decide)).mp outside
      exact .inl (past.trans_lt (Nat.lt_add_of_pos_right positive))
    rename_i inside
    have room := building.blocks_chunk exact positive
    have more : blocks (off + chunk off p.length) ≤ blocks (off + p.length) :=
      blocks_mono (Nat.add_le_add_left (chunk_le off p.length) off)
    refine (fileBlock_spec building (Nat.not_le.mp inside)).bind ?_ ?_
    · rintro ⟨x, din'⟩ s' (⟨logged', advance⟩ | ⟨full, length, beyond⟩)
      · obtain ⟨readable, first⟩ := advance.turn some exact building
        have length : (p.take (chunk off p.length)).length = chunk off p.length := by
          rw [List.length_take, Nat.min_eq_left (chunk_le _ _)]
        have rest : (p.drop (chunk off p.length)).length = p.length - chunk off p.length :=
          List.length_drop
        have le := chunk_le off p.length
        have advances := chunk_pos off positive
        simp only [ensures_bind, ensures_rsect, n1_eq, offset_eq, ensures_wsect]
        refine ⟨fun _ => ?_, fun outside => by rw [advance.building.length] at outside; omega⟩
        have bound := chunk_bound (n := p.length) (Nat.not_le.mp inside)
        have grown := first.exact
        rw [length] at grown
        have second := ih (p := p.drop (chunk off p.length))
          (by omega) first.building grown bound
        have total : off + chunk off p.length + (p.drop (chunk off p.length)).length =
            off + p.length := by omega
        rw [total] at second
        refine second.mono ?_ ?_
        · rintro ⟨last, din''⟩ s'' ⟨ends, fits, logged'', more⟩
          refine ⟨ends, fits, logged'', ?_⟩
          have joined := first.append (congrArg (off + ·) length) more
          rwa [List.take_append_drop] at joined
        · intro _ overflows
          have taken := first.freeblock
          rw [length] at taken
          rw [Overflows, total] at overflows
          rcases overflows with long | full
          · exact .inl long
          · exact .inr (by omega)
      · simp only [ensures_bind, ensures_rsect]
        refine ⟨fun readable => ?_, fun _ => .inr ?_⟩
        · dsimp only at beyond readable
          omega
        · omega
    · intro _ full
      right
      omega

end Turn

end Xv6.Mkfs
