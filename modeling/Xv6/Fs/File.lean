import Xv6.Fs.Room

/-!
# Files as byte lists

An inode is a list of bytes.  `writei` overwrites part of the list and extends it at
the end, or rejects the call and changes nothing; `readi` returns part of the list.
-/

namespace Xv6

open Exec Fs

def Fs.contents (fs : Fs) (i : Nat) : List UInt8 := (List.range (fs.cur i).size).map (fs.byte i)

section Lists

variable {fs : Fs} {i : Nat}

@[simp]
theorem length_contents : (fs.contents i).length = (fs.cur i).size := by
  simp [Fs.contents]

theorem contents_congr {after : Fs} {j : Nat} (size : (after.cur j).size = (fs.cur i).size)
    (bytes : ∀ k, after.byte j k = fs.byte i k) : after.contents j = fs.contents i := by
  unfold Fs.contents
  rw [size, funext bytes]

theorem getElem?_contents (k : Nat) :
    (fs.contents i)[k]? = if k < (fs.cur i).size then some (fs.byte i k) else none := by
  by_cases inside : k < (fs.cur i).size
  · simp [Fs.contents, inside]
  · simp [Fs.contents, inside]

theorem map_byte_eq (off n : Nat) (start : off ≤ (fs.cur i).size) :
    (List.range (readLength (fs.cur i).size off n)).map (fun k => fs.byte i (off + k)) =
      ((fs.contents i).drop off).take n := by
  refine List.ext_getElem? fun k => ?_
  rw [List.getElem?_take, List.getElem?_drop, getElem?_contents, List.getElem?_map]
  unfold readLength
  by_cases inside : k < n ∧ off + k < (fs.cur i).size
  · rw [if_pos inside.1, if_pos inside.2, List.getElem?_range (by split <;> omega), Option.map_some]
  · rw [List.getElem?_eq_none (by rw [List.length_range]; split <;> omega), Option.map_none]
    split
    · rw [if_neg (by omega)]
    · rfl

end Lists

section Files

variable {fs after : Fs} {ip : Slot} {off : Nat} {src : List UInt8}

theorem Written.contents_other (written : Written fs after ip off src) {j : Nat}
    (inside : j < fs.sb.ninodes) (other : j ≠ (fs.icache ip).inum) :
    after.contents j = fs.contents j := by
  refine contents_congr (by rw [written.cur_other inside other]) fun k => ?_
  rw [written.byte, if_neg fun here => other here.1]

variable (devsw : Devsw)

theorem readi_contents (sound : fs.Sound) (live : fs.Live ip)
    (plain : (fs.icache ip).copy.type ≠ T_DEV) {off n : Nat} (offset : off < 2 ^ 32)
    (count : n < 2 ^ 32) :
    (readi devsw ip off n).Ensures fs (fun result last => last = fs ∧
        result = if (fs.contents (fs.icache ip).inum).length < off ∨ 2 ^ 32 ≤ off + n then none
          else some (((fs.contents (fs.icache ip).inum).drop off).take n))
      (fun _ => False) := by
  have current := cur_of_live sound.unique live
  have wraps : (off + n) % 2 ^ 32 < off ↔ 2 ^ 32 ≤ off + n := by omega
  refine (readi_ensures devsw sound.toOwned live plain off n).mono ?_
    fun _ stopped => stopped.2 (sound.whole_of_live live)
  rintro result last ⟨-, rfl, same⟩
  refine ⟨same (sound.whole_of_live live), ?_⟩
  rw [length_contents, current]
  simp only [wraps]
  split
  · rfl
  next accepted =>
    rw [← map_byte_eq off n (by rw [current]; omega), current]

theorem writei_accepted (sound : fs.Sound) (live : fs.Live ip)
    (plain : (fs.icache ip).copy.type ≠ T_DEV)
    (accepted : ¬WriteRejected (fs.icache ip).copy.size off src.length) :
    (writei devsw ip src off).Ensures fs
      (fun result after => result = some src.length ∧ Written fs after ip off src ∧ after.Sound)
      (fun _ => ¬fs.Enough (fs.icache ip).inum (spanPositions off src.length)) := by
  have stops : (writei devsw ip src off).Ensures fs (fun _ _ => True)
      (fun _ => ¬fs.Enough (fs.icache ip).inum (spanPositions off src.length)) := by
    by_cases enough : fs.Enough (fs.icache ip).inum (spanPositions off src.length)
    · exact (writei_enough devsw sound.toOwned sound.marked live plain enough).mono
        (fun _ _ _ => trivial) fun _ never => never.elim
    · exact Ensures.always.mono (fun _ _ _ => trivial) fun _ _ => enough
  refine ((writei_ensures devsw sound.toOwned live plain off src).and stops).mono ?_
    fun _ stopped => stopped.2
  rintro result after ⟨⟨rejected, -⟩ | ⟨-, rfl, mid, wrote, rfl⟩, -⟩
  · exact absurd rejected accepted
  · have written := wrote.grow live accepted
    exact ⟨rfl, written, sound.of_written live written (not_lt.mp (not_or.mp accepted).1)⟩

end Files

/-- In every state that operations can lead to, `itrunc` frees the blocks of the inode and no
others, and leaves every other file as it is, inside a transaction that has logged the blocks
of `header` and has room for the bit map and the inode. -/
theorem itrunc_frees_exactly (devsw : Devsw) {sb : Superblock} {disk : Disk}
    (formed : WellFormed sb disk) {fs : Fs} {ip : Slot}
    (reachable : Transition.Reachable (InodeOp.step devsw) (fun fs op => op.Allowed fs)
      (boot disk) fs) (locked : fs.Locked ip) {header : List Nat}
    (room : { fs with logged := header }.LogRoom (sb.bitmapBlocks + 1)) :
    (itrunc ip).Ensures { fs with logged := header }
      (fun _ after => after.contents (fs.icache ip).inum = [] ∧
        (∀ b, b ∈ after.freeBlocks ↔ b ∈ fs.freeBlocks ∨
          b ≠ 0 ∧ ∃ pos, fs.addr (fs.icache ip).inum pos = b) ∧
        (∀ j < sb.ninodes, j ≠ (fs.icache ip).inum → after.contents j = fs.contents j) ∧
        { fs with logged := header }.Admitted after)
      (fun _ => False) := by
  obtain ⟨rfl, sound, settled⟩ := sound_of_reachable devsw formed reachable
  have live := locked.live settled
  have owned : ({ fs with logged := header } : Fs).Owned := sound.withLog
  refine (itrunc_ensures owned live).mono ?_ fun _ => id
  intro _ after truncated
  refine ⟨?_, fun b => ?_, fun j inside other => ?_, truncated.admitted room⟩
  · rw [← List.length_eq_zero_iff, length_contents, truncated.cur_self live]
    rfl
  · have freed : b < fs.sb.size → (after.used b = true ↔ fs.used b = true ∧
        ¬(b ≠ 0 ∧ ∃ pos, fs.addr (fs.icache ip).inum pos = b)) := truncated.used b
    have area : ∀ pos, fs.addr (fs.icache ip).inum pos = b → b ≠ 0 → b < fs.sb.size := by
      rintro pos rfl mapped
      exact (sound.area _ pos mapped).2.1
    simp only [freeBlocks, Finset.mem_filter, Finset.mem_range, truncated.change.sb,
      ← Bool.not_eq_true]
    grind
  · refine contents_congr (congrArg Dinode.size (truncated.cur_other inside other)) fun k => ?_
    exact truncated.change.byte_eq owned fun same => absurd same other

/-- A file of three bytes. -/
theorem itrunc_frees_exactly_three : ∃ fs,
    Transition.Reachable (InodeOp.step noDevices) (fun fs op => op.Allowed fs) (boot blankDisk) fs ∧
      (fs.icache 0).copy.size = 3 ∧ (itrunc 0).Ensures fs
        (fun _ after => after.contents (fs.icache 0).inum = [] ∧ fs.Admitted after)
        (fun _ => False) := by
  obtain ⟨fs, reachable, -, -, locked, size, room⟩ := exists_of_blank
    [.ialloc 2, .ilock 0, .writei 0 [1, 2, 3] 0]
    (fun fs => fs.Locked 0 ∧ (fs.icache 0).copy.size = 3 ∧
      fs.LogRoom (mkfsSb.bitmapBlocks + 1)) (by decide +kernel)
  exact ⟨fs, reachable, size,
    (itrunc_frees_exactly noDevices blankDisk_formed reachable locked room).mono
      (fun _ _ outcome => ⟨outcome.1, outcome.2.2.2⟩) fun _ => id⟩

end Xv6
