import Xv6.Fs.Cache

/-!
# Reading and writing inodes

The loops of `readi` and `writei` go through the blocks that hold some byte of
the range.  `Wrote` collects what a stretch of writing does: which positions it
may occupy, which bytes it changes, and which blocks it passes to `log_write`.
-/

namespace Xv6

open Exec Fs

/-- Block `bn` holds a byte of the `n` bytes at `off`. -/
def InSpan (off n bn : Nat) : Prop := ∃ k, off ≤ k ∧ k < off + n ∧ k / BSIZE = bn

/-- How much of `n` bytes at `off` lies in the first block. -/
def chunk (off n : Nat) : Nat := min n (BSIZE - off % BSIZE)

theorem chunk_le (off n : Nat) : chunk off n ≤ n := Nat.min_le_left _ _

theorem chunk_pos {n : Nat} (off : Nat) (some : 0 < n) : 0 < chunk off n := by
  have inside : off % BSIZE < BSIZE := Nat.mod_lt _ (by decide)
  unfold chunk
  omega

theorem chunk_div_mod {off n : Nat} (k : Nat) (inside : k < chunk off n) :
    (off + k) / BSIZE = off / BSIZE ∧ (off + k) % BSIZE = off % BSIZE + k := by
  simp only [chunk, BSIZE] at inside ⊢
  omega

theorem inSpan_chunk {off n bn : Nat} (some : 0 < n) :
    InSpan off (chunk off n) bn ↔ bn = off / BSIZE := by
  have positive := chunk_pos off some
  constructor
  · rintro ⟨k, lower, upper, rfl⟩
    have position := (chunk_div_mod (k - off) (show k - off < chunk off n by omega)).1
    rwa [Nat.add_sub_cancel' lower] at position
  · rintro rfl
    exact ⟨off, le_rfl, by omega, rfl⟩

theorem inSpan_append {off first second bn : Nat} :
    InSpan off (first + second) bn ↔ InSpan off first bn ∨ InSpan (off + first) second bn := by
  constructor
  · rintro ⟨k, lower, upper, block⟩
    by_cases early : k < off + first
    · exact .inl ⟨k, lower, early, block⟩
    · exact .inr ⟨k, by omega, by omega, block⟩
  · rintro (⟨k, lower, upper, block⟩ | ⟨k, lower, upper, block⟩)
    · exact ⟨k, lower, by omega, block⟩
    · exact ⟨k, by omega, by omega, block⟩

theorem inSpan_lt {off n bn : Nat} (span : InSpan off n bn) (inside : off + n ≤ MAXFILE * BSIZE) :
    bn < MAXFILE := by
  obtain ⟨k, -, upper, rfl⟩ := span
  exact Nat.div_lt_of_lt_mul (by rw [Nat.mul_comm]; omega)

theorem blockPos_inj {first second : Nat} (same : blockPos first = blockPos second) :
    first = second := by
  unfold blockPos at same
  split at same <;> split at same <;> omega

theorem getBytes_eq_byte {fs : Fs} {i off n b : Nat}
    (mapped : fs.addr i (blockPos (off / BSIZE)) = b) (positive : b ≠ 0) :
    Bytes.getBytes (fs.disk b) (off % BSIZE) (chunk off n) =
      (List.range (chunk off n)).map fun k => fs.byte i (off + k) := by
  apply List.map_congr_left
  intro k member
  obtain ⟨block, position⟩ := chunk_div_mod k (List.mem_range.mp member)
  have inside : off % BSIZE + k < BSIZE := by
    rw [← position]
    exact Nat.mod_lt _ (by decide)
  unfold Fs.byte
  rw [dif_pos inside]
  simp only [block, position, mapped, if_neg positive]

theorem readiLoop_ensures {fs : Fs} (owned : fs.Owned) {ip : Slot} (live : fs.Live ip)
    {fuel n off : Nat} (enough : n ≤ fuel) (inside : off + n ≤ MAXFILE * BSIZE) :
    (readiLoop ip fuel n off).Ensures fs
      (fun bytes after => Fills fs after ip ∧
        bytes = (List.range n).map (fun k => fs.byte (fs.icache ip).inum (off + k)) ∧
        ((∀ bn, InSpan off n bn → fs.addr (fs.icache ip).inum (blockPos bn) ≠ 0) → after = fs))
      (fun stop => stop = .panic .outOfBlocks ∧
        ∃ bn, InSpan off n bn ∧ fs.addr (fs.icache ip).inum (blockPos bn) = 0) := by
  induction fuel generalizing fs n off with
  | zero =>
    have none : n = 0 := by omega
    subst none
    exact ⟨Fills.refl owned ip, rfl, fun _ => rfl⟩
  | succ fuel ih =>
    unfold readiLoop
    split
    next none =>
      subst none
      exact ⟨Fills.refl owned ip, rfl, fun _ => rfl⟩
    next more =>
      have some : 0 < n := by omega
      have positive := chunk_pos off some
      have small := chunk_le off n
      have whole : chunk off n + (n - chunk off n) = n := by omega
      have first : InSpan off n (off / BSIZE) := ⟨off, le_rfl, by omega, rfl⟩
      refine (bmap_ensures owned live (inSpan_lt first inside)).bind ?_ ?_
      · intro b mid mapped
        simp only [ensures_bind, ensures_bread]
        have later : ∀ bn, InSpan (off + chunk off n) (n - chunk off n) bn → InSpan off n bn := by
          intro bn span
          rw [← whole]
          exact inSpan_append.mpr (.inr span)
        have rest := ih mapped.fills.owned (mapped.fills.live live)
          (show n - chunk off n ≤ fuel by omega)
          (show off + chunk off n + (n - chunk off n) ≤ MAXFILE * BSIZE by omega)
        refine rest.mono ?_ ?_
        · rintro bytes after ⟨fills, rfl, unchanged⟩
          simp only [ensures_pure]
          refine ⟨mapped.fills.trans fills, ?_, ?_⟩
          · have block := getBytes_eq_byte (n := n) mapped.result mapped.positive
            change Bytes.getBytes _ _ (chunk off n) ++ _ = _
            conv_rhs => rw [← whole, List.range_add, List.map_append, List.map_map]
            rw [block]
            simp only [mapped.fills.byte, mapped.fills.inum, Function.comp_def, Nat.add_assoc]
          · intro allMapped
            have same := mapped.same (allMapped _ first)
            subst same
            exact unchanged fun bn span => allMapped bn (later bn span)
        · rintro stop ⟨rfl, bn, span, empty⟩
          refine ⟨rfl, bn, later bn span, ?_⟩
          by_contra present
          rw [mapped.fills.inum, mapped.fills.keep _ _ present] at empty
          exact present empty
      · rintro stop ⟨rfl, empty⟩
        exact ⟨rfl, _, first, empty⟩

/-! ## Writing -/

theorem Fs.Owned.write_block {fs : Fs} (owned : fs.Owned) (ip : Slot) {bn b : Nat}
    (mapped : fs.addr (fs.icache ip).inum (blockPos bn) = b) (positive : b ≠ 0) (data : Block) :
    Grows fs (fs.write b data) ip ∧
      (∀ j pos, (fs.write b data).addr j pos = fs.addr j pos) ∧
      ∀ j k, (fs.write b data).byte j k =
        if j = (fs.icache ip).inum ∧ k / BSIZE = bn then data ⟨k % BSIZE, Nat.mod_lt _ (by decide)⟩
        else fs.byte j k := by
  have present : fs.addr (fs.icache ip).inum (blockPos bn) ≠ 0 := mapped ▸ positive
  obtain ⟨lower, upper, -⟩ := owned.area _ _ present
  have apart : ∀ j pos, fs.addr j pos = b → j = (fs.icache ip).inum ∧ pos = blockPos bn := by
    intro j pos clash
    have same := owned.once _ _ _ _ present (mapped.trans clash.symm)
    exact ⟨same.1.symm, same.2.symm⟩
  obtain ⟨keeps, bits⟩ := owned.write_data (b := b) (mapped ▸ lower) (mapped ▸ upper)
    (fun j clash => blockPos_ne bn (apart j NDIRECT clash).2.symm) data
  have noNew : ∀ pos, ¬New fs (fs.write b data) (fs.icache ip).inum pos := by
    intro pos new
    rw [New, keeps.addr] at new
    exact new.2 new.1
  refine ⟨⟨keeps.owned, rfl, keeps.dinode, rfl, fun _ _ => rfl, fun _ _ _ => keeps.addr _ _,
    fun _ _ _ => keeps.addr _ _, ?_, fun pos new => absurd new (noNew pos)⟩, keeps.addr, ?_⟩
  · intro c inside
    rw [bits c inside]
    simp [noNew]
  · intro j k
    by_cases here : j = (fs.icache ip).inum ∧ k / BSIZE = bn
    · rw [if_pos here, byte, keeps.addr, here.1, here.2, mapped, if_neg positive]
      exact congrFun (Function.update_self b data fs.disk) _
    · rw [if_neg here]
      refine byte_congr (keeps.addr _ _) ?_
      intro _
      refine Function.update_of_ne ?_ _ _
      intro clash
      obtain ⟨same, position⟩ := apart j _ clash
      exact here ⟨same, blockPos_inj position⟩

/-- What writing `src` at `off` does. -/
structure Wrote (fs after : Fs) (ip : Slot) (off : Nat) (src : List UInt8) : Prop where
  grows : Grows fs after ip
  mapped : ∀ bn, InSpan off src.length bn → after.addr (fs.icache ip).inum (blockPos bn) ≠ 0
  /-- only blocks of the range are filled, and the indirect block along with one of them -/
  only : ∀ pos, New fs after (fs.icache ip).inum pos →
    ∃ bn, InSpan off src.length bn ∧ fs.addr (fs.icache ip).inum (blockPos bn) = 0 ∧
      (pos = blockPos bn ∨ pos = NDIRECT ∧ NDIRECT ≤ bn)
  byte : ∀ j k, after.byte j k =
    if j = (fs.icache ip).inum ∧ off ≤ k ∧ k < off + src.length then src.getD (k - off) 0
    else fs.byte j k
  logged : ∀ c, c ∈ after.logged ↔ c ∈ fs.logged ∨
    (∃ pos, New fs after (fs.icache ip).inum pos ∧ Touched after (fs.icache ip).inum pos c) ∨
    ∃ bn, InSpan off src.length bn ∧ c = after.addr (fs.icache ip).inum (blockPos bn)

theorem not_inSpan_zero (off bn : Nat) : ¬InSpan off 0 bn := by
  rintro ⟨k, lower, upper, -⟩
  omega

theorem Wrote.nil {fs : Fs} (owned : fs.Owned) (ip : Slot) (off : Nat) : Wrote fs fs ip off [] where
  grows := Grows.refl owned ip
  mapped bn span := absurd span (not_inSpan_zero off bn)
  only pos new := absurd new.1 new.2
  byte j k := by
    rw [if_neg]
    rintro ⟨-, lower, upper⟩
    simp only [List.length_nil] at upper
    omega
  logged c := by
    simp +contextual [New, not_inSpan_zero]

theorem Wrote.append {fs mid after : Fs} {ip : Slot} {off : Nat} {first second : List UInt8}
    (wrote : Wrote fs mid ip off first) (more : Wrote mid after ip (off + first.length) second) :
    Wrote fs after ip off (first ++ second) := by
  have inum := wrote.grows.inum
  refine ⟨wrote.grows.trans more.grows, ?_, ?_, ?_, ?_⟩
  · intro bn span
    rw [List.length_append, inSpan_append] at span
    rcases span with early | late
    · have present := wrote.mapped bn early
      rw [more.grows.keep _ _ present]
      exact present
    · exact inum ▸ more.mapped bn late
  · intro pos new
    rw [List.length_append]
    rcases new.split mid with early | late
    · obtain ⟨bn, span, empty, place⟩ := wrote.only pos early
      exact ⟨bn, inSpan_append.mpr (.inl span), empty, place⟩
    · obtain ⟨bn, span, empty, place⟩ := more.only pos (inum ▸ late)
      refine ⟨bn, inSpan_append.mpr (.inr span), ?_, place⟩
      by_contra present
      rw [inum, wrote.grows.keep _ _ present] at empty
      exact present empty
  · intro j k
    rw [more.byte, wrote.byte, inum, List.length_append]
    by_cases late : off + first.length ≤ k
    · have past : ¬k < off + first.length := by omega
      have lower : off ≤ k := by omega
      have second : k - off - first.length = k - (off + first.length) := by omega
      rw [List.getD_append_right _ _ _ _ (by omega), second]
      simp only [late, past, lower, true_and, and_false, if_false, Nat.add_assoc]
    · have early : k < off + first.length := by omega
      have inside : k < off + (first.length + second.length) := by omega
      simp only [late, false_and, and_false, if_false, early, inside, and_true]
      split
      next here =>
        rw [List.getD_append _ _ _ _ (by omega)]
      · rfl
  · intro c
    have blocks : (∃ bn, InSpan off (first ++ second).length bn ∧
          c = after.addr (fs.icache ip).inum (blockPos bn)) ↔
        (∃ bn, InSpan off first.length bn ∧ c = mid.addr (fs.icache ip).inum (blockPos bn)) ∨
          ∃ bn, InSpan (off + first.length) second.length bn ∧
            c = after.addr (fs.icache ip).inum (blockPos bn) := by
      simp only [List.length_append, inSpan_append, or_and_right, exists_or]
      refine or_congr_left (exists_congr fun bn => and_congr_right fun span => ?_)
      rw [more.grows.keep _ _ (wrote.mapped bn span)]
    rw [more.logged, wrote.logged, inum, wrote.grows.touched_trans more.grows, blocks]
    simp only [or_assoc]
    apply or_congr_right
    apply or_congr_right
    exact or_left_comm

theorem setBytes_chunk {off k : Nat} {data : Block} {src : List UInt8}
    (block : k / BSIZE = off / BSIZE) :
    Bytes.setBytes data (off % BSIZE) (src.take (chunk off src.length))
        ⟨k % BSIZE, Nat.mod_lt _ (by decide)⟩ =
      if off ≤ k ∧ k < off + chunk off src.length then
        (src.take (chunk off src.length)).getD (k - off) 0
      else data ⟨k % BSIZE, Nat.mod_lt _ (by decide)⟩ := by
  have length : (src.take (chunk off src.length)).length = chunk off src.length := by
    rw [List.length_take, Nat.min_eq_left (chunk_le _ _)]
  have order : (off % BSIZE ≤ k % BSIZE ↔ off ≤ k) ∧
      (off ≤ k → k % BSIZE - off % BSIZE = k - off) := by
    simp only [BSIZE] at block ⊢
    omega
  split
  next within =>
    have bound : k - off < (src.take (chunk off src.length)).length := by
      rw [length]
      omega
    rw [Bytes.setBytes_inside _ _ _ _ (order.1.mpr within.1)
      (by rw [order.2 within.1]; exact bound), List.getD_eq_getElem _ _ bound]
    simp only [order.2 within.1]
  next outside =>
    apply Bytes.setBytes_outside
    rw [length]
    by_cases before : off ≤ k
    · have offset := order.2 before
      have lower := order.1.mpr before
      dsimp only
      omega
    · have lower : ¬off % BSIZE ≤ k % BSIZE := fun le => before (order.1.mp le)
      dsimp only
      omega

theorem Wrote.turn {fs mid : Fs} {ip : Slot} {off b : Nat} {src : List UInt8} (some : src ≠ [])
    (mapped : Mapped fs mid ip (blockPos (off / BSIZE)) b fun pos =>
      pos = NDIRECT ∧ NDIRECT ≤ off / BSIZE) :
    Wrote fs (mid.write b (Bytes.setBytes (mid.disk b) (off % BSIZE)
      (src.take (chunk off src.length)))) ip off (src.take (chunk off src.length)) := by
  have inum := mapped.fills.inum
  have positive : 0 < src.length := List.length_pos_iff.mpr some
  have length : (src.take (chunk off src.length)).length = chunk off src.length := by
    rw [List.length_take, Nat.min_eq_left (chunk_le _ _)]
  obtain ⟨grows, addrs, bytes⟩ := mapped.fills.owned.write_block ip
    (by rw [inum]; exact mapped.result) mapped.positive (Bytes.setBytes (mid.disk b) (off % BSIZE)
      (src.take (chunk off src.length)))
  refine ⟨mapped.fills.toGrows.trans grows, ?_, ?_, ?_, ?_⟩
  · intro bn span
    rw [length, inSpan_chunk positive] at span
    rw [addrs, span, mapped.result]
    exact mapped.positive
  · intro pos new
    rw [New, addrs] at new
    refine ⟨off / BSIZE, by rw [length, inSpan_chunk positive], ?_, mapped.only pos new⟩
    by_contra present
    rw [mapped.same present] at new
    exact new.2 new.1
  · intro j k
    rw [bytes, inum, length, mapped.fills.byte]
    by_cases here : j = (fs.icache ip).inum ∧ k / BSIZE = off / BSIZE
    · have old : fs.byte j k = mid.disk b ⟨k % BSIZE, Nat.mod_lt _ (by decide)⟩ := by
        rw [← mapped.fills.byte, Fs.byte, here.1, here.2, mapped.result, if_neg mapped.positive]
      rw [if_pos here, setBytes_chunk here.2, old]
      simp only [here.1, true_and]
    · rw [if_neg here, if_neg]
      rintro ⟨same, lower, upper⟩
      have block := (chunk_div_mod (k - off) (show k - off < chunk off src.length by omega)).1
      rw [Nat.add_sub_cancel' lower] at block
      exact here ⟨same, block⟩
  · intro c
    have grown : (mid.write b (Bytes.setBytes (mid.disk b) (off % BSIZE)
        (src.take (chunk off src.length)))).logged = b :: mid.logged := rfl
    simp only [New, Touched, addrs, length, inSpan_chunk positive, exists_eq_left, mapped.result]
    rw [grown, List.mem_cons, mapped.fills.logged, or_comm, or_assoc]
    rfl

/-- The loop of `writei` writes everything it is given, and panics only for lack
of blocks. -/
theorem writeiLoop_ensures {fs : Fs} (owned : fs.Owned) {ip : Slot} (live : fs.Live ip)
    {fuel off : Nat} {src : List UInt8} (enough : src.length ≤ fuel)
    (inside : off + src.length ≤ MAXFILE * BSIZE) :
    (writeiLoop ip fuel src off).Ensures fs
      (fun last after => last = off + src.length ∧ Wrote fs after ip off src)
      (fun stop => stop = .panic .outOfBlocks) := by
  induction fuel generalizing fs off src with
  | zero =>
    have none : src = [] := List.length_eq_zero_iff.mp (by omega)
    subst none
    exact ⟨rfl, Wrote.nil owned ip off⟩
  | succ fuel ih =>
    unfold writeiLoop
    split
    next none =>
      subst none
      exact ⟨rfl, Wrote.nil owned ip off⟩
    next some =>
      have positive := chunk_pos off (List.length_pos_iff.mpr some)
      have small := chunk_le off src.length
      have length : (src.take (chunk off src.length)).length = chunk off src.length := by
        rw [List.length_take, Nat.min_eq_left small]
      have first : InSpan off src.length (off / BSIZE) := ⟨off, le_rfl, by omega, rfl⟩
      refine (bmap_ensures owned live (inSpan_lt first inside)).bind ?_ (fun _ stopped => stopped.1)
      intro b mid mapped
      simp only [ensures_bind, ensures_bread, ensures_logWrite]
      have turn := Wrote.turn some mapped
      have rest := ih turn.grows.owned (turn.grows.live live)
        (show (src.drop (chunk off src.length)).length ≤ fuel by
          rw [List.length_drop]
          omega)
        (show off + chunk off src.length + (src.drop (chunk off src.length)).length ≤
            MAXFILE * BSIZE by
          rw [List.length_drop]
          omega)
      refine rest.mono ?_ (fun _ stopped => stopped)
      rintro last after ⟨rfl, wrote⟩
      refine ⟨by rw [List.length_drop]; omega, ?_⟩
      have whole : Wrote fs after ip off
          (src.take (chunk off src.length) ++ src.drop (chunk off src.length)) := by
        apply turn.append
        rw [length]
        exact wrote
      rwa [List.take_append_drop] at whole

/-! ## `readi` and `writei` -/

/-- Every block up to the size of an inode is mapped. -/
def Fs.Whole (fs : Fs) (i : Nat) : Prop :=
  ∀ bn, bn * BSIZE < (fs.cur i).size → fs.addr i (blockPos bn) ≠ 0

theorem inSpan_mul_lt {off n bn size : Nat} (span : InSpan off n bn) (inside : off + n ≤ size) :
    bn * BSIZE < size := by
  obtain ⟨k, -, upper, rfl⟩ := span
  have below := Nat.div_mul_le_self k BSIZE
  omega

section Content

variable (devsw : Devsw) {fs : Fs} {ip : Slot}

def readLength (size off n : Nat) : Nat := if size < off + n then size - off else n

theorem readi_ensures (owned : fs.Owned) (live : fs.Live ip)
    (plain : (fs.icache ip).copy.type ≠ T_DEV) (off n : Nat) :
    (readi devsw ip off n).Ensures fs
      (fun result after => Fills fs after ip ∧
        result = (if (fs.icache ip).copy.size < off ∨ (off + n) % 2 ^ 32 < off then none
          else some ((List.range (readLength (fs.icache ip).copy.size off n)).map fun k =>
            fs.byte (fs.icache ip).inum (off + k))) ∧
        (fs.Whole (fs.icache ip).inum → after = fs))
      (fun stop => stop = .panic .outOfBlocks ∧ ¬fs.Whole (fs.icache ip).inum) := by
  unfold readi
  simp only [ensures_bind, ensures_getInode]
  rw [if_neg plain]
  split
  · exact ⟨Fills.refl owned ip, rfl, fun _ => rfl⟩
  next accepted =>
    rw [not_or, not_lt] at accepted
    have bound := owned.size_le live
    have within : off + readLength (fs.icache ip).copy.size off n ≤ (fs.icache ip).copy.size := by
      unfold readLength
      split <;> omega
    have current := cur_of_live owned.unique live
    have spanned : fs.Whole (fs.icache ip).inum → ∀ bn,
        InSpan off (readLength (fs.icache ip).copy.size off n) bn →
          fs.addr (fs.icache ip).inum (blockPos bn) ≠ 0 := by
      intro whole bn span
      exact whole bn (current ▸ inSpan_mul_lt span within)
    refine (readiLoop_ensures owned live le_rfl (within.trans bound)).bind ?_ ?_
    · rintro bytes after ⟨fills, rfl, unchanged⟩
      exact ⟨fills, rfl, fun whole => unchanged (spanned whole)⟩
    · rintro stop ⟨rfl, bn, span, empty⟩
      exact ⟨rfl, fun whole => spanned whole bn span empty⟩

theorem readi_device (device : (fs.icache ip).copy.type = T_DEV) (off n : Nat) :
    (readi devsw ip off n).Ensures fs (fun _ after => after = fs) (fun _ => False) := by
  unfold readi
  simp only [ensures_bind, ensures_getInode]
  rw [if_pos device]
  split <;> exact rfl

theorem writei_device (device : (fs.icache ip).copy.type = T_DEV) (off : Nat) (src : List UInt8) :
    (writei devsw ip src off).Ensures fs (fun _ after => after = fs) (fun _ => False) := by
  unfold writei
  simp only [ensures_bind, ensures_getInode]
  rw [if_pos device]
  split <;> exact rfl

def Fs.grow (fs : Fs) (ip : Slot) (size : Nat) : Fs :=
  if (fs.icache ip).copy.size < size then
    fs.store ip { (fs.icache ip).copy with size := size }
  else fs

/-- What `writei` rejects: an offset past the end and a size past the maximum. -/
def WriteRejected (size off n : Nat) : Prop := size < off ∨ MAXFILE * BSIZE < off + n

instance (size off n : Nat) : Decidable (WriteRejected size off n) :=
  inferInstanceAs (Decidable (_ ∨ _))

theorem writei_ensures (owned : fs.Owned) (live : fs.Live ip)
    (plain : (fs.icache ip).copy.type ≠ T_DEV) (off : Nat) (src : List UInt8) :
    (writei devsw ip src off).Ensures fs
      (fun result after =>
        WriteRejected (fs.icache ip).copy.size off src.length ∧ result = none ∧ after = fs ∨
          ¬WriteRejected (fs.icache ip).copy.size off src.length ∧ result = some src.length ∧
            ∃ mid, Wrote fs mid ip off src ∧ after = mid.grow ip (off + src.length))
      (fun stop => stop = .panic .outOfBlocks) := by
  have bound := owned.size_le live
  unfold writei
  simp only [ensures_bind, ensures_getInode]
  rw [if_neg plain]
  by_cases early : (fs.icache ip).copy.size < off
  · rw [if_pos (.inl early)]
    exact .inl ⟨.inl early, rfl, rfl⟩
  by_cases long : MAXFILE * BSIZE < off + src.length
  · split
    · exact .inl ⟨.inr long, rfl, rfl⟩
    · exact .inl ⟨.inr long, rfl, rfl⟩
  · have fits : ¬(off + src.length) % 2 ^ 32 < off := by
      simp only [MAXFILE, NDIRECT, NINDIRECT, BSIZE] at bound long
      omega
    rw [if_neg (not_or.mpr ⟨early, fits⟩), if_neg long]
    have accepted := not_or.mpr ⟨early, long⟩
    refine (writeiLoop_ensures owned live le_rfl (not_lt.mp long)).bind ?_
      (fun _ stopped => stopped)
    rintro last mid ⟨rfl, wrote⟩
    simp only [ensures_bind, ensures_getInode]
    have size : (mid.icache ip).copy.size = (fs.icache ip).copy.size := by rw [wrote.grows.copy]
    split
    next grown =>
      simp only [ensures_bind, ensures_setInode]
      refine ensures_iupdate.mpr (.inr ?_)
      refine ⟨accepted, rfl, mid, wrote, ?_⟩
      rw [Fs.grow, if_pos grown.2]
    next same =>
      refine .inr ⟨accepted, rfl, mid, wrote, ?_⟩
      rw [Fs.grow, if_neg]
      intro grown
      exact same ⟨by omega, grown⟩

end Content

structure Written (fs after : Fs) (ip : Slot) (off : Nat) (src : List UInt8) : Prop where
  owned : after.Owned
  sb : after.sb = fs.sb
  copy : after.icache ip = { fs.icache ip with
    copy := { (fs.icache ip).copy with
      size := max (fs.icache ip).copy.size (off + src.length),
      addrs := (after.icache ip).copy.addrs } }
  slots : ∀ jp, jp ≠ ip → after.icache jp = fs.icache jp
  dinode : ∀ i < fs.sb.ninodes, i ≠ (fs.icache ip).inum → after.dinode i = fs.dinode i
  /-- the inode is written back when its size has changed -/
  stored : after.dinode (fs.icache ip).inum =
    if (fs.icache ip).copy.size < off + src.length then (after.icache ip).copy
    else fs.dinode (fs.icache ip).inum
  keep : ∀ i pos, fs.addr i pos ≠ 0 → after.addr i pos = fs.addr i pos
  other : ∀ i pos, i ≠ (fs.icache ip).inum → after.addr i pos = fs.addr i pos
  used : ∀ b < fs.sb.size, after.used b = true ↔
    fs.used b = true ∨ ∃ pos, New fs after (fs.icache ip).inum pos ∧
      after.addr (fs.icache ip).inum pos = b
  mapped : ∀ bn, InSpan off src.length bn → after.addr (fs.icache ip).inum (blockPos bn) ≠ 0
  only : ∀ pos, New fs after (fs.icache ip).inum pos →
    ∃ bn, InSpan off src.length bn ∧ fs.addr (fs.icache ip).inum (blockPos bn) = 0 ∧
      (pos = blockPos bn ∨ pos = NDIRECT ∧ NDIRECT ≤ bn)
  byte : ∀ j k, after.byte j k =
    if j = (fs.icache ip).inum ∧ off ≤ k ∧ k < off + src.length then src.getD (k - off) 0
    else fs.byte j k
  logged : ∀ c, c ∈ after.logged ↔ c ∈ fs.logged ∨
    (∃ pos, New fs after (fs.icache ip).inum pos ∧ Touched after (fs.icache ip).inum pos c) ∨
    (∃ bn, InSpan off src.length bn ∧ c = after.addr (fs.icache ip).inum (blockPos bn)) ∨
    (fs.icache ip).copy.size < off + src.length ∧ c = fs.sb.iblock (fs.icache ip).inum

section Written

variable {fs mid after : Fs} {ip : Slot} {off : Nat} {src : List UInt8}

theorem Wrote.grow (wrote : Wrote fs mid ip off src) (live : fs.Live ip)
    (accepted : ¬WriteRejected (fs.icache ip).copy.size off src.length) :
    Written fs (mid.grow ip (off + src.length)) ip off src := by
  have grows := wrote.grows
  have inum := grows.inum
  have isLive := grows.live live
  have inode := grows.owned.inums ip isLive.ref_pos
  have size : (mid.icache ip).copy.size = (fs.icache ip).copy.size := by rw [grows.copy]
  rw [WriteRejected, not_or, not_lt, not_lt] at accepted
  unfold Fs.grow
  split
  next grown =>
    have range : { (mid.icache ip).copy with size := off + src.length }.InRange := by
      have old := grows.owned.range ip isLive
      refine ⟨old.type, old.major, old.minor, old.nlink, ?_, old.addrs⟩
      have bound := accepted.2
      simp only [MAXFILE, NDIRECT, NINDIRECT, BSIZE] at bound
      change off + src.length < 2 ^ 32
      omega
    have same := grows.owned.store_header isLive range isLive.2.2 accepted.2 rfl
    have entry : (mid.setCopy ip { (mid.icache ip).copy with size := off + src.length }).icache ip =
        { mid.icache ip with copy := { (mid.icache ip).copy with size := off + src.length } } :=
      setCopy_icache_self ip _
    have news : ∀ pos, New fs (mid.store ip { (mid.icache ip).copy with
        size := off + src.length }) (fs.icache ip).inum pos ↔
        New fs mid (fs.icache ip).inum pos := by
      intro pos
      rw [New, same.addr, New]
    refine ⟨same.owned, grows.sb, ?_, ?_, ?_, ?_, ?_, ?_, ?_, ?_, ?_, ?_, ?_⟩
    · rw [store_icache, entry, Nat.max_eq_right (size ▸ grown).le]
      rw [grows.copy]
    · intro jp other
      rw [store_icache, setCopy_icache_ne _ other]
      exact grows.slots jp other
    · intro i small other
      rw [dinode_store range, inum, if_neg other]
      exact grows.dinode i small
    · rw [dinode_store range, inum, if_pos rfl, if_pos (size ▸ grown), store_icache, entry]
    · intro i pos
      rw [same.addr]
      exact grows.keep i pos
    · intro i pos
      rw [same.addr]
      exact grows.other i pos
    · intro b inside
      rw [same.used b (grows.sb ▸ inside)]
      simp only [news, same.addr]
      exact grows.used b inside
    · intro bn
      rw [same.addr]
      exact wrote.mapped bn
    · intro pos
      rw [news]
      exact wrote.only pos
    · intro j k
      rw [same.byte]
      exact wrote.byte j k
    · intro c
      have logged : (mid.store ip { (mid.icache ip).copy with size := off + src.length }).logged =
          mid.sb.iblock (mid.icache ip).inum :: mid.logged := rfl
      have sb : (mid.store ip { (mid.icache ip).copy with size := off + src.length }).sb = mid.sb :=
        rfl
      rw [logged, List.mem_cons, wrote.logged, inum, grows.sb]
      simp only [news, Touched, same.addr, sb, grows.sb, size ▸ grown, true_and]
      rw [or_comm, or_assoc, or_assoc]
  next fits =>
    rw [size, not_lt] at fits
    refine ⟨grows.owned, grows.sb, ?_, grows.slots, fun i small _ => grows.dinode i small, ?_,
      grows.keep, grows.other, grows.used, wrote.mapped, wrote.only, wrote.byte, ?_⟩
    · rw [Nat.max_eq_left fits]
      exact grows.copy
    · rw [if_neg (not_lt.mpr fits), grows.dinode _ (grows.sb ▸ inum ▸ inode)]
    · intro c
      rw [wrote.logged]
      simp only [not_lt.mpr fits, false_and, or_false]

variable (written : Written fs after ip off src)

include written

theorem Written.inum : (after.icache ip).inum = (fs.icache ip).inum := by
  rw [written.copy]

theorem Written.live (live : fs.Live ip) : after.Live ip := by
  unfold Live
  rw [written.copy]
  exact live

theorem Written.cur_self (live : fs.Live ip) :
    after.cur (fs.icache ip).inum = (after.icache ip).copy := by
  rw [← written.inum]
  exact cur_of_live written.owned.unique (written.live live)

theorem Written.concerns : Concerns fs after (fs.icache ip).inum := by
  intro jp
  by_cases same : jp = ip
  · subst same
    exact .inr ⟨fun _ => rfl, fun _ => written.inum⟩
  · exact .inl (written.slots jp same)

theorem Written.cur_other {j : Nat} (inside : j < fs.sb.ninodes) (other : j ≠ (fs.icache ip).inum) :
    after.cur j = fs.cur j :=
  written.concerns.cur_eq other (written.dinode j inside other)

theorem Written.not_new (owned : fs.Owned) (live : fs.Live ip)
    (whole : fs.Whole (fs.icache ip).inum) (inside : off + src.length ≤ (fs.icache ip).copy.size)
    (pos : Nat) :
    ¬New fs after (fs.icache ip).inum pos := by
  intro new
  obtain ⟨bn, span, empty, -⟩ := written.only pos new
  refine whole bn ?_ empty
  rw [cur_of_live owned.unique live]
  exact inSpan_mul_lt span inside

theorem Written.copy_eq (owned : fs.Owned) (live : fs.Live ip)
    (whole : fs.Whole (fs.icache ip).inum) (inside : off + src.length ≤ (fs.icache ip).copy.size) :
    (after.icache ip).copy = (fs.icache ip).copy := by
  have addrs : (after.icache ip).copy.addrs = (fs.icache ip).copy.addrs := by
    funext k
    have direct : k.val ≤ NDIRECT := Nat.lt_succ_iff.mp k.isLt
    rw [Dinode.addrs_eq_addr, Dinode.addrs_eq_addr,
      ← written.owned.addr_direct (written.live live) direct, ← owned.addr_direct live direct,
      written.inum]
    by_cases empty : fs.addr (fs.icache ip).inum k.val = 0
    · by_contra changed
      exact written.not_new owned live whole inside k.val ⟨empty, empty ▸ changed⟩
    · exact written.keep _ _ empty
  rw [written.copy, addrs, Nat.max_eq_left inside]

theorem Written.whole (owned : fs.Owned) (live : fs.Live ip) (whole : fs.Whole (fs.icache ip).inum)
    (start : off ≤ (fs.icache ip).copy.size) : after.Whole (fs.icache ip).inum := by
  intro bn below
  rw [written.cur_self live, written.copy] at below
  rcases lt_max_iff.mp below with old | new
  · have mapped := whole bn (by rw [cur_of_live owned.unique live]; exact old)
    rw [written.keep _ _ mapped]
    exact mapped
  · by_cases early : bn * BSIZE < (fs.icache ip).copy.size
    · have mapped := whole bn (by rw [cur_of_live owned.unique live]; exact early)
      rw [written.keep _ _ mapped]
      exact mapped
    · exact written.mapped bn ⟨bn * BSIZE, by omega, new, Nat.mul_div_cancel _ (by decide)⟩

end Written

end Xv6
