import Xv6.Fs.Truncate
import Xv6.Lib.Transition

/-!
# Integrity of the disk

A well-formed disk: every block an inode refers to is a data block of its own,
the bit map marks exactly the blocks in use, and every file is mapped up to its
size.  `Sound` adds a cache that agrees with the disk.  Every operation of the
inode layer keeps it, so a sequence of operations that all return leads from a
well-formed disk to a well-formed disk.
-/

namespace Xv6

open Exec Fs

/-- The block an inode on disk refers to at a position, zero if there is none. -/
def Superblock.addr (sb : Superblock) (disk : Disk) (i pos : Nat) : Nat :=
  if i < sb.ninodes ∧ (sb.dinode disk i).type ≠ 0 ∧ pos < NADDR then
    (sb.dinode disk i).addrAt disk pos
  else 0

structure WellFormed (sb : Superblock) (disk : Disk) : Prop where
  layout : sb.Ok
  superblock : Superblock.decode (disk 1) = sb
  mapped : ∀ i < sb.ninodes, (sb.dinode disk i).type ≠ 0 →
    ∀ bn, bn * BSIZE < (sb.dinode disk i).size → sb.addr disk i (blockPos bn) ≠ 0
  area : ∀ i pos, sb.addr disk i pos ≠ 0 →
    sb.datastart ≤ sb.addr disk i pos ∧ sb.addr disk i pos < sb.size
  once : ∀ i j pos other, sb.addr disk i pos ≠ 0 → sb.addr disk i pos = sb.addr disk j other →
    i = j ∧ pos = other
  bitmap : ∀ b < sb.size, sb.used disk b = true ↔
    b < sb.datastart ∨ ∃ i pos, sb.addr disk i pos = b

namespace Fs

variable {fs after : Fs} {ip : Slot} {i : Nat}

/-- The cache agrees with a well-formed disk. -/
structure Sound (fs : Fs) : Prop extends Owned fs where
  synced : ∀ ip, fs.Live ip → (fs.icache ip).copy = fs.dinode (fs.icache ip).inum
  whole : ∀ i < fs.sb.ninodes, (fs.cur i).type ≠ 0 → fs.Whole i
  marked : ∀ b, fs.sb.datastart ≤ b → b < fs.sb.size → fs.used b = true → ∃ i pos, fs.addr i pos = b

theorem cur_of_synced (unique : fs.Unique)
    (synced : ∀ ip, fs.Live ip → (fs.icache ip).copy = fs.dinode (fs.icache ip).inum) (i : Nat) :
    fs.cur i = fs.dinode i := by
  by_cases cached : ∃ ip, fs.Live ip ∧ (fs.icache ip).inum = i
  · obtain ⟨ip, live, rfl⟩ := cached
    rw [cur_of_live unique live, synced ip live]
  · exact cur_of_not_live fun ip live number => cached ⟨ip, live, number⟩

theorem Sound.cur_eq (sound : fs.Sound) (i : Nat) : fs.cur i = fs.dinode i :=
  cur_of_synced sound.unique sound.synced i

theorem Sound.addr_eq (sound : fs.Sound) (i pos : Nat) :
    fs.addr i pos = fs.sb.addr fs.disk i pos := by
  unfold addr
  rw [sound.cur_eq]
  rfl

theorem Sound.wellFormed (sound : fs.Sound) : WellFormed fs.sb fs.disk where
  layout := sound.layout
  superblock := sound.superblock
  mapped i inode type bn below := by
    have current := sound.cur_eq i
    rw [← sound.addr_eq]
    exact sound.whole i inode (current ▸ type) bn (current ▸ below)
  area i pos := by
    rw [← sound.addr_eq]
    intro mapped
    obtain ⟨lower, upper, -⟩ := sound.area i pos mapped
    exact ⟨lower, upper⟩
  once i j pos other := by
    rw [← sound.addr_eq, ← sound.addr_eq]
    exact sound.once i j pos other
  bitmap b inside := by
    simp only [← sound.addr_eq]
    constructor
    · intro used
      by_cases reserved : b < fs.sb.datastart
      · exact .inl reserved
      · exact .inr (sound.marked b (by omega) inside used)
    · rintro (reserved | ⟨i, pos, rfl⟩)
      · exact sound.reserved b reserved
      · by_cases mapped : fs.addr i pos = 0
        · rw [mapped]
          exact sound.reserved 0 (by have := sound.bmapstart_lt inside; omega)
        · exact (sound.area i pos mapped).2.2

/-- The state the kernel starts in: an empty cache over a disk. -/
def boot (disk : Disk) : Fs where
  disk := disk
  sb := Superblock.decode (disk 1)
  icache _ := { inum := 0, ref := 0, busy := false, valid := false, copy := Dinode.zeroed 0 }
  logged := []

theorem not_live_boot (disk : Disk) (ip : Slot) : ¬(boot disk).Live ip :=
  fun live => absurd live.ref_pos (lt_irrefl _)

theorem boot_sound {sb : Superblock} {disk : Disk} (formed : WellFormed sb disk) :
    (boot disk).Sound := by
  have sameSb : (boot disk).sb = sb := formed.superblock
  have current : ∀ i, (boot disk).cur i = sb.dinode disk i := by
    intro i
    rw [cur_of_not_live fun ip live => absurd live (not_live_boot disk ip), ← sameSb]
    rfl
  have addrs : ∀ i pos, (boot disk).addr i pos = sb.addr disk i pos := by
    intro i pos
    unfold addr Superblock.addr
    rw [current, sameSb]
    rfl
  have bits : ∀ b, (boot disk).used b = sb.used disk b := by
    intro b
    unfold used
    rw [sameSb]
    rfl
  refine ⟨⟨sameSb ▸ formed.layout, rfl, ?_, ?_, ?_, ?_, ?_, ?_, ?_, ?_⟩, ?_, ?_, ?_⟩
  · intro ip positive
    exact absurd positive (lt_irrefl _)
  · intro ip jp positive
    exact absurd positive (lt_irrefl _)
  · intro ip live
    exact absurd live (not_live_boot disk ip)
  · intro ip live
    exact absurd live (not_live_boot disk ip)
  · intro i inode type
    rw [current] at type ⊢
    -- a larger file would have to map a block past the last position
    by_contra large
    rw [sameSb] at inode
    refine formed.mapped i inode type MAXFILE (by omega) ?_
    unfold Superblock.addr
    rw [if_neg]
    rintro ⟨-, -, bound⟩
    exact absurd bound (by decide)
  · intro b reserved
    rw [sameSb] at reserved
    rw [bits]
    exact (formed.bitmap b (reserved.trans_le (Nat.sub_le _ _))).mpr (.inl reserved)
  · intro i pos mapped
    rw [addrs] at mapped ⊢
    obtain ⟨lower, upper⟩ := formed.area i pos mapped
    rw [sameSb, bits]
    exact ⟨lower, upper, (formed.bitmap _ upper).mpr (.inr ⟨i, pos, rfl⟩)⟩
  · intro i j pos other
    rw [addrs, addrs]
    exact formed.once i j pos other
  · intro ip live
    exact absurd live (not_live_boot disk ip)
  · intro i inode type bn below
    rw [current] at type below
    rw [addrs]
    exact formed.mapped i (sameSb ▸ inode) type bn below
  · intro b lower upper used
    rw [sameSb] at lower upper
    rw [bits, formed.bitmap b upper] at used
    obtain ⟨i, pos, held⟩ := used.resolve_left (by omega)
    exact ⟨i, pos, (addrs i pos).trans held⟩

/-! ## The operations keep it -/

theorem Sound.of_same_addr (sound : fs.Sound) (owned : after.Owned) (sb : after.sb = fs.sb)
    (synced : ∀ ip, after.Live ip → (after.icache ip).copy = after.dinode (after.icache ip).inum)
    (addr : ∀ i pos, after.addr i pos = fs.addr i pos)
    (used : ∀ b < fs.sb.size, after.used b = fs.used b)
    (size : ∀ i < fs.sb.ninodes, (after.cur i).type ≠ 0 → (after.cur i).size ≠ 0 →
      (fs.cur i).type ≠ 0 ∧ (after.cur i).size = (fs.cur i).size) : after.Sound := by
  refine ⟨owned, synced, ?_, ?_⟩
  · intro i inode type bn below
    rw [sb] at inode
    obtain ⟨allocated, same⟩ := size i inode type (by omega)
    rw [addr]
    exact sound.whole i inode allocated bn (same ▸ below)
  · intro b lower upper
    rw [sb] at lower upper
    rw [used b upper]
    simp only [addr]
    exact sound.marked b lower upper

theorem Sound.setSlot {inode : Inode} (sound : fs.Sound) (settable : Settable fs ip inode i) :
    (fs.setSlot ip inode).Sound := by
  have owned := (settable.change sound.toOwned).toOwned sound.toOwned
  have synced : ∀ jp, (fs.setSlot ip inode).Live jp →
      ((fs.setSlot ip inode).icache jp).copy =
        (fs.setSlot ip inode).dinode ((fs.setSlot ip inode).icache jp).inum := by
    intro jp live
    change _ = fs.dinode _
    by_cases same : jp = ip
    · unfold Live at live
      rw [same, setSlot_icache_self] at live ⊢
      rw [(settable.inum live.1).1]
      rcases settable.copy live.1 live.2.1 live.2.2 with ⟨before, copied⟩ | copied
      · rw [copied, sound.synced ip before, settable.before before]
      · exact copied
    · rw [setSlot_icache_ne inode same]
      exact sound.synced jp ((live_setSlot_ne same).mp live)
  have current : ∀ j, (fs.setSlot ip inode).cur j = fs.cur j := by
    intro j
    rw [cur_of_synced owned.unique synced, sound.cur_eq]
    rfl
  refine sound.of_same_addr owned rfl synced ?_ (fun _ _ => rfl) ?_
  · intro j pos
    exact addr_congr (by rfl) (current j) (fun _ => rfl) pos
  · intro j _ type _
    rw [current] at type ⊢
    exact ⟨type, rfl⟩

theorem cur_store_ne {d : Dinode} (range : d.InRange) {j : Nat}
    (other : j ≠ (fs.icache ip).inum) : (fs.store ip d).cur j = fs.cur j := by
  have concerns : Concerns fs (fs.store ip d) (fs.icache ip).inum := by
    intro jp
    by_cases same : jp = ip
    · subst same
      exact .inr ⟨fun _ => rfl, fun _ => setCopy_inum jp jp d⟩
    · exact .inl (setCopy_icache_ne d same)
  refine concerns.cur_eq other ?_
  rw [dinode_store range, if_neg other]

theorem Sound.synced_store {d : Dinode} (sound : fs.Sound) (range : d.InRange) (jp : Slot)
    (live : fs.Live ip) (jpLive : (fs.store ip d).Live jp) :
    ((fs.store ip d).icache jp).copy = (fs.store ip d).dinode ((fs.store ip d).icache jp).inum := by
  rw [dinode_store range, store_icache, setCopy_inum]
  by_cases same : jp = ip
  · rw [same, setCopy_icache_self, if_pos rfl]
  · have before : fs.Live jp := (live_setCopy_ne same).mp jpLive
    rw [setCopy_icache_ne d same, if_neg (sound.alone live.ref_pos jp same before.ref_pos)]
    exact sound.synced jp before

theorem Sound.store_header {d : Dinode} (sound : fs.Sound) (live : fs.Live ip) (range : d.InRange)
    (type : d.type ≠ 0) (size : d.size = (fs.icache ip).copy.size)
    (addrs : d.addrs = (fs.icache ip).copy.addrs) : (fs.store ip d).Sound := by
  have same := sound.toOwned.store_header live range type (size ▸ sound.size_le live) addrs
  refine sound.of_same_addr same.owned rfl (fun jp => sound.synced_store range jp live) same.addr
    same.used ?_
  intro j _ allocated _
  by_cases here : j = (fs.icache ip).inum
  · subst here
    rw [sound.toOwned.cur_store live range, cur_of_live sound.unique live]
    exact ⟨live.2.2, size⟩
  · rw [cur_store_ne range here] at allocated ⊢
    exact ⟨allocated, rfl⟩

theorem Sound.store_free {d : Dinode} (sound : fs.Sound) (live : fs.Live ip) (range : d.InRange)
    (type : d.type = 0) (empty : ∀ pos, fs.addr (fs.icache ip).inum pos = 0) :
    (fs.store ip d).Sound := by
  have change := sound.toOwned.store (d := d) live range (fun wrong => absurd type wrong)
    (fun wrong => absurd type wrong)
  refine sound.of_same_addr (change.toOwned sound.toOwned) rfl
    (fun jp => sound.synced_store range jp live) ?_ (fun c _ => sound.used_store live c) ?_
  · intro j pos
    by_cases here : j = (fs.icache ip).inum
    · subst here
      rw [empty]
      by_contra mapped
      rw [change.addr pos mapped] at mapped
      exact mapped (empty pos)
    · exact change.addr_other sound.toOwned here pos
  · intro j _ allocated _
    by_cases here : j = (fs.icache ip).inum
    · subst here
      rw [sound.toOwned.cur_store live range] at allocated
      exact absurd type allocated
    · rw [cur_store_ne range here] at allocated ⊢
      exact ⟨allocated, rfl⟩

theorem Sound.take {type inum : Nat} (sound : fs.Sound) (inside : inum < fs.sb.ninodes)
    (free : (fs.dinode inum).type = 0) (fits : type < 2 ^ 16) : (fs.take type inum).Sound := by
  have change := sound.toOwned.take inside free fits
  have synced : ∀ jp, (fs.take type inum).Live jp → ((fs.take type inum).icache jp).copy =
      (fs.take type inum).dinode ((fs.take type inum).icache jp).inum := by
    intro jp live
    have other := sound.not_live_of_free free jp live
    rw [dinode_take fits]
    have away : ((fs.take type inum).icache jp).inum ≠ inum := other
    rw [if_neg away]
    exact sound.synced jp live
  refine sound.of_same_addr (change.toOwned sound.toOwned) rfl synced ?_
    (fun c _ => sound.used_take inside c) ?_
  · intro j pos
    by_cases here : j = inum
    · subst here
      rw [sound.addr_take free fits]
      unfold addr
      rw [sound.cur_eq, if_neg]
      exact fun all => all.2.1 free
    · exact change.addr_other sound.toOwned here pos
  · intro j _ allocated sized
    by_cases here : j = inum
    · subst here
      rw [sound.cur_take free fits] at sized
      exact absurd rfl sized
    · have same := change.concerns.cur_eq here (by rw [dinode_take fits, if_neg here])
      rw [same] at allocated ⊢
      exact ⟨allocated, rfl⟩

theorem Sound.of_written {off : Nat} {src : List UInt8} (sound : fs.Sound) (live : fs.Live ip)
    (written : Written fs after ip off src) (start : off ≤ (fs.icache ip).copy.size) :
    after.Sound := by
  have inode := sound.inums ip live.ref_pos
  have whole : fs.Whole (fs.icache ip).inum :=
    sound.whole _ inode (by rw [cur_of_live sound.unique live]; exact live.2.2)
  refine ⟨written.owned, ?_, ?_, ?_⟩
  · intro jp jpLive
    by_cases same : jp = ip
    · rw [same, written.inum, written.stored]
      split
      · rfl
      next within =>
        rw [written.copy_eq sound.toOwned live whole (not_lt.mp within)]
        exact sound.synced ip live
    · have before : fs.Live jp := by
        unfold Live at jpLive ⊢
        rwa [written.slots jp same] at jpLive
      rw [written.slots jp same, written.dinode _ (sound.inums jp before.ref_pos)
        (sound.alone live.ref_pos jp same before.ref_pos)]
      exact sound.synced jp before
  · intro j small allocated
    rw [written.sb] at small
    by_cases here : j = (fs.icache ip).inum
    · subst here
      exact written.whole sound.toOwned live whole start
    · have current := written.cur_other small here
      intro bn below
      rw [written.other j _ here]
      rw [current] at allocated below
      exact sound.whole j small allocated bn below
  · intro b lower upper used
    rw [written.sb] at lower upper
    rcases (written.used b upper).mp used with old | ⟨pos, -, held⟩
    · obtain ⟨i, pos, rfl⟩ := sound.marked b lower upper old
      exact ⟨i, pos, written.keep i pos (sound.ne_zero_of_data lower upper)⟩
    · exact ⟨_, pos, held⟩

theorem Sound.of_truncated (sound : fs.Sound) (live : fs.Live ip)
    (truncated : Truncated fs after ip) : after.Sound := by
  have change := truncated.change
  refine ⟨change.toOwned sound.toOwned, ?_, ?_, ?_⟩
  · intro jp jpLive
    by_cases same : jp = ip
    · have inum : (after.icache ip).inum = (fs.icache ip).inum := by
        rw [truncated.icache, setCopy_inum]
      rw [same, inum, truncated.dinode, truncated.icache, setCopy_icache_self]
    · have kept : after.icache jp = fs.icache jp := by
        rw [truncated.icache, setCopy_icache_ne _ same]
      have before : fs.Live jp := by
        unfold Live at jpLive ⊢
        rwa [kept] at jpLive
      rw [kept, change.dinode _ (sound.inums jp before.ref_pos)
        (sound.alone live.ref_pos jp same before.ref_pos)]
      exact sound.synced jp before
  · intro j small allocated bn below
    rw [change.sb] at small
    by_cases here : j = (fs.icache ip).inum
    · subst here
      rw [truncated.cur_self live] at below
      exact absurd below (Nat.not_lt_zero _)
    · rw [change.addr_other sound.toOwned here]
      rw [truncated.cur_other small here] at allocated below
      exact sound.whole j small allocated bn below
  · intro b lower upper used
    rw [change.sb] at lower upper
    obtain ⟨old, kept⟩ := (truncated.used b upper).mp used
    obtain ⟨i, pos, rfl⟩ := sound.marked b lower upper old
    refine ⟨i, pos, change.addr_other sound.toOwned ?_ pos⟩
    rintro rfl
    exact kept ⟨sound.ne_zero_of_data lower upper, pos, rfl⟩

theorem Sound.got {inum : Nat} (sound : fs.Sound) (inside : inum < fs.sb.ninodes)
    (got : Got fs inum ip after) : after.Sound := by
  obtain ⟨inode, rfl, settable, -⟩ := got.settable sound.toOwned inside
  exact sound.setSlot settable

theorem Sound.drop (sound : fs.Sound) (ip : Slot) :
    (fs.setSlot ip { fs.icache ip with ref := (fs.icache ip).ref - 1 }).Sound := by
  by_cases referenced : 0 < (fs.icache ip).ref
  · exact sound.setSlot (sound.retag referenced _ _)
  · -- the entry belongs to nobody, before and after
    refine sound.setSlot (i := fs.sb.ninodes) ⟨?_, ?_, ?_, ?_⟩
    · intro live
      exact absurd live.ref_pos referenced
    · intro positive
      dsimp only at positive
      omega
    · intro jp _ positive
      exact (sound.inums jp positive).ne
    · intro positive
      dsimp only at positive
      omega

end Fs

/-! ## Sequences of operations -/

/-- The operations of the inode layer, each run to its end.  `iupdate` stands
for a caller that sets the fields it may set and then calls `iupdate`. -/
inductive InodeOp where
  | ialloc (type : UInt16)
  | iget (inum : Nat)
  | ilock (ip : Slot)
  | iunlock (ip : Slot)
  | readi (ip : Slot) (off n : Nat)
  | writei (ip : Slot) (src : List UInt8) (off : Nat)
  | itrunc (ip : Slot)
  | iupdate (ip : Slot) (major minor nlink : UInt16)
  | iput (ip : Slot)

namespace InodeOp

variable (devsw : Devsw)

def exec : InodeOp → FsM Unit
  | .ialloc type => do let _ ← Xv6.ialloc type.toNat
  | .iget inum => do let _ ← Xv6.iget inum
  | .ilock ip => Xv6.ilock ip
  | .iunlock ip => Xv6.iunlock ip
  | .readi ip off n => do let _ ← Xv6.readi devsw ip off n
  | .writei ip src off => do let _ ← Xv6.writei devsw ip src off
  | .itrunc ip => Xv6.itrunc ip
  | .iupdate ip major minor nlink => do
    let inode ← getInode ip
    setInode ip { inode with copy := { inode.copy with
      major := major.toNat, minor := minor.toNat, nlink := nlink.toNat } }
    Xv6.iupdate ip
  | .iput ip => Xv6.iput ip

/-- What a caller has to see to: inode numbers exist, and inodes are locked
where `fs.c` asks for it. -/
def Allowed (fs : Fs) : InodeOp → Prop
  | .iget inum => inum < fs.sb.ninodes
  | .readi ip _ _ => fs.Locked ip
  | .writei ip _ _ => fs.Locked ip
  | .itrunc ip => fs.Locked ip
  | .iupdate ip _ _ _ => fs.Locked ip
  | _ => True

instance (fs : Fs) (op : InodeOp) : Decidable (op.Allowed fs) := by
  cases op <;> unfold Allowed <;> infer_instance

/-- One operation; there is no next state if it panics or has to wait. -/
def step (fs : Fs) (op : InodeOp) : Option Fs :=
  match op.exec devsw fs with
  | .ok (_, after) => some after
  | .error _ => none

end InodeOp

theorem iallocLoop_ensures {fs : Fs} (type : Nat) (inums : List Nat) :
    (iallocLoop type inums).Ensures fs
      (fun ip after => ∃ inum ∈ inums, (fs.dinode inum).type = 0 ∧
        Got (fs.take type inum) inum ip after)
      (fun stop => stop = .panic .iallocNoInodes ∨ stop = .panic .igetNoInodes) := by
  induction inums with
  | nil => exact .inl rfl
  | cons inum rest ih =>
    unfold iallocLoop iallocTry
    simp only [ensures_bind, ensures_getSb, ensures_bread]
    split
    next free =>
      simp only [ensures_bind, ensures_logWrite, ensures_pure, if_true]
      refine (iget_ensures (fs.take type inum) inum).mono ?_ fun _ => .inr
      intro ip after got
      exact ⟨inum, List.mem_cons_self, free, got⟩
    · simp only [ensures_pure, Bool.false_eq_true, if_false]
      refine ih.mono ?_ fun _ => id
      rintro ip after ⟨found, member, free, got⟩
      exact ⟨found, List.mem_cons_of_mem inum member, free, got⟩

/-- What every operation of a sequence maintains. -/
structure Kept (fs after : Fs) : Prop where
  sb : after.sb = fs.sb
  sound : after.Sound
  settled : after.Settled

section Operations

variable (devsw : Devsw) {fs : Fs} {ip : Slot} (sound : fs.Sound)

include sound

theorem Fs.Sound.whole_of_live (live : fs.Live ip) : fs.Whole (fs.icache ip).inum :=
  sound.whole _ (sound.inums ip live.ref_pos)
    (by rw [cur_of_live sound.unique live]; exact live.2.2)

theorem readi_sound (live : fs.Live ip) (off n : Nat) :
    (readi devsw ip off n).Ensures fs (fun _ after => after = fs) (fun _ => False) := by
  by_cases device : (fs.icache ip).copy.type = T_DEV
  · exact readi_device devsw device off n
  · refine (readi_ensures devsw sound.toOwned live device off n).mono ?_ ?_
    · rintro _ after ⟨-, -, same⟩
      exact same (sound.whole_of_live live)
    · rintro stop ⟨-, hole⟩
      exact hole (sound.whole_of_live live)

theorem writei_sound (live : fs.Live ip) (off : Nat) (src : List UInt8) :
    (writei devsw ip src off).Ensures fs
      (fun _ after => after = fs ∨ Written fs after ip off src ∧ after.Sound)
      (fun stop => stop = .panic .outOfBlocks) := by
  by_cases device : (fs.icache ip).copy.type = T_DEV
  · exact (writei_device devsw device off src).mono (fun _ _ => .inl) (fun _ => False.elim)
  · refine (writei_ensures devsw sound.toOwned live device off src).mono ?_ fun _ => id
    rintro _ after (⟨-, -, same⟩ | ⟨accepted, -, mid, wrote, rfl⟩)
    · exact .inl same
    · have written := wrote.grow live accepted
      exact .inr ⟨written, sound.of_written live written (not_lt.mp (not_or.mp accepted).1)⟩

theorem ialloc_sound (type : UInt16) (settled : fs.Settled) :
    (ialloc type.toNat).Ensures fs (fun _ after => Kept fs after)
      (fun stop => stop = .panic .iallocNoInodes ∨ stop = .panic .igetNoInodes) := by
  unfold ialloc
  simp only [ensures_bind, ensures_getSb]
  refine (iallocLoop_ensures _ _).mono ?_ fun _ => id
  rintro ip after ⟨inum, member, free, got⟩
  have inside : inum < fs.sb.ninodes := by
    have bounds := List.mem_range'_1.mp member
    omega
  have taken := sound.take inside free type.toNat_lt
  have stillSettled : (fs.take type.toNat inum).Settled := settled
  exact ⟨got.sb, taken.got inside got, stillSettled.got got⟩

theorem ilock_sound (settled : fs.Settled) :
    (ilock ip).Ensures fs (fun _ after => Kept fs after)
      (fun stop => stop ≠ .panic .freeingFreeBlock) := by
  unfold ilock ilockAcquire ilockLoad
  simp only [ensures_bind, ensures_getInode]
  split
  · simp
  next referenced =>
    have positive : 0 < (fs.icache ip).ref := by omega
    split
    · simp
    · simp only [ensures_setInode, setSlot_icache_self]
      have busy := sound.setSlot (sound.retag positive (fs.icache ip).ref true)
      have stillSettled : (fs.setSlot ip { fs.icache ip with busy := true }).Settled :=
        settled.setSlot fun _ => settled ip positive
      split
      · exact ⟨rfl, busy, stillSettled⟩
      · simp only [ensures_bind, ensures_getSb, ensures_bread, ensures_setInode]
        split
        · simp
        next type =>
          have entry : (fs.setSlot ip { fs.icache ip with busy := true }).icache ip =
              { fs.icache ip with busy := true } := setSlot_icache_self ip _
          have loaded := busy.setSlot (busy.load (by rw [entry]; exact positive))
          have settledAgain : ((fs.setSlot ip { fs.icache ip with busy := true }).setSlot ip
              { fs.icache ip with
                busy := true, copy := fs.dinode (fs.icache ip).inum, valid := true }).Settled :=
            stillSettled.setSlot fun _ _ => type
          rw [entry] at loaded
          exact ⟨rfl, loaded, settledAgain⟩

theorem itrunc_sound (live : fs.Live ip) (settled : fs.Settled) :
    (itrunc ip).Ensures fs (fun _ after => Kept fs after) (fun _ => False) := by
  refine (itrunc_ensures sound.toOwned live).mono ?_ fun _ => id
  intro _ after truncated
  exact ⟨truncated.change.sb, sound.of_truncated live truncated,
    settled.setCopy truncated.icache live.2.2⟩

theorem iput_free_sound (live : fs.Live ip) (settled : fs.Settled) (last : (fs.icache ip).ref = 1) :
    (do itrunc ip; iputClear ip; iputFinish ip : FsM Unit).Ensures fs
      (fun _ after => Kept fs after) (fun _ => False) := by
  refine (itrunc_ensures sound.toOwned live).bind ?_ fun _ => id
  intro _ mid truncated
  have isSound := sound.of_truncated live truncated
  have isLive := truncated.live live
  have entry : mid.icache ip = { fs.icache ip with copy := (fs.icache ip).copy.truncated } := by
    rw [truncated.icache, setCopy_icache_self]
  unfold iputClear iputFinish
  simp only [ensures_bind, ensures_getInode, ensures_setInode]
  refine ensures_iupdate.mpr ?_
  have range : { (mid.icache ip).copy with type := 0 }.InRange := by
    have old := isSound.range ip isLive
    exact ⟨Nat.two_pow_pos 16, old.major, old.minor, old.nlink, old.size, old.addrs⟩
  have empty : ∀ pos, mid.addr (mid.icache ip).inum pos = 0 := by
    intro pos
    rw [entry]
    exact truncated.addr_self live pos
  have cleared := isSound.store_free isLive range rfl empty
  have copied : (mid.store ip { (mid.icache ip).copy with type := 0 }).icache ip =
      { mid.icache ip with copy := { (mid.icache ip).copy with type := 0 } } :=
    setCopy_icache_self ip _
  have positive : 0 < ((mid.store ip { (mid.icache ip).copy with type := 0 }).icache ip).ref := by
    rw [copied]
    exact isLive.ref_pos
  refine ⟨truncated.change.sb, cleared.setSlot (cleared.forget positive _ false), ?_⟩
  intro jp
  by_cases same : jp = ip
  · intro referenced
    rw [same, setSlot_icache_self, copied, entry] at referenced
    dsimp only at referenced
    omega
  · rw [setSlot_icache_ne _ same]
    have kept : (mid.store ip { (mid.icache ip).copy with type := 0 }).icache jp =
        fs.icache jp := by
      rw [store_icache, setCopy_icache_ne _ same, truncated.icache, setCopy_icache_ne _ same]
    rw [kept]
    exact settled jp

theorem iput_sound (settled : fs.Settled) :
    (iput ip).Ensures fs (fun _ after => Kept fs after)
      (fun stop => stop = .panic .iputBusy) := by
  unfold iput iputTest
  simp only [ensures_bind, ensures_getInode]
  split
  next last =>
    have positive : 0 < (fs.icache ip).ref := by omega
    split
    · exact rfl
    · simp only [ensures_bind, ensures_setInode, ensures_pure, if_true]
      have busy := sound.setSlot (sound.retag positive (fs.icache ip).ref true)
      have stillSettled : (fs.setSlot ip { fs.icache ip with busy := true }).Settled :=
        settled.setSlot fun _ => settled ip positive
      have entry : (fs.setSlot ip { fs.icache ip with busy := true }).icache ip =
          { fs.icache ip with busy := true } := setSlot_icache_self ip _
      have live : (fs.setSlot ip { fs.icache ip with busy := true }).Live ip := by
        unfold Live
        rw [entry]
        exact ⟨positive, last.2.1, settled ip positive last.2.1⟩
      have freed := iput_free_sound busy live stillSettled (by rw [entry]; exact last.1)
      simp only [ensures_bind] at freed
      exact freed.mono (fun _ _ kept => ⟨kept.sb, kept.sound, kept.settled⟩) fun _ => False.elim
  · simp only [ensures_bind, ensures_setInode, ensures_pure, Bool.false_eq_true, if_false]
    refine ⟨rfl, sound.drop ip, settled.setSlot ?_⟩
    intro positive
    dsimp only at positive
    exact settled ip (by omega)

theorem InodeOp.exec_sound (settled : fs.Settled) {op : InodeOp} (allowed : op.Allowed fs) :
    (op.exec devsw).Ensures fs (fun _ after => Kept fs after)
      (fun stop => stop ≠ .panic .freeingFreeBlock) := by
  cases op with
  | ialloc type =>
    refine (ialloc_sound sound type settled).bind (fun _ _ => id) ?_
    rintro stop (rfl | rfl) <;> simp
  | iget inum =>
    refine (iget_ensures fs inum).bind ?_ ?_
    · intro ip after got
      exact ⟨got.sb, sound.got allowed got, settled.got got⟩
    · rintro stop rfl
      simp
  | ilock ip => exact ilock_sound sound settled
  | iunlock ip =>
    unfold exec Xv6.iunlock
    simp only [ensures_bind, ensures_getInode]
    split
    · simp
    next held =>
      simp only [Bool.or_eq_true, decide_eq_true_eq, not_or, Int.not_lt] at held
      have positive : 0 < (fs.icache ip).ref := by omega
      exact ⟨rfl, sound.setSlot (sound.retag positive _ false),
        settled.setSlot fun _ => settled ip positive⟩
  | readi ip off n =>
    refine (readi_sound devsw sound (allowed.live settled) off n).bind ?_ fun _ => False.elim
    rintro _ after rfl
    exact ⟨rfl, sound, settled⟩
  | writei ip src off =>
    refine (writei_sound devsw sound (allowed.live settled) off src).bind ?_ ?_
    · rintro _ after (rfl | ⟨written, isSound⟩)
      · exact ⟨rfl, sound, settled⟩
      · refine ⟨written.sb, isSound, ?_⟩
        intro jp
        by_cases same : jp = ip
        · rw [same, written.copy]
          exact settled ip
        · rw [written.slots jp same]
          exact settled jp
    · rintro stop rfl
      simp
  | itrunc ip =>
    exact (itrunc_sound sound (allowed.live settled) settled).mono (fun _ _ => id)
      fun _ => False.elim
  | iupdate ip major minor nlink =>
    unfold exec
    simp only [ensures_bind, ensures_getInode, ensures_setInode]
    refine ensures_iupdate.mpr ?_
    have live := Locked.live allowed settled
    have old := sound.range ip live
    exact ⟨rfl, sound.store_header live ⟨old.type, major.toNat_lt, minor.toNat_lt, nlink.toNat_lt,
      old.size, old.addrs⟩ live.2.2 rfl rfl, settled.setCopy (store_icache ip _) live.2.2⟩
  | iput ip =>
    refine (iput_sound sound settled).mono (fun _ _ => id) ?_
    rintro stop rfl
    simp

end Operations

theorem sound_of_reachable (devsw : Devsw) {sb : Superblock} {disk : Disk}
    (formed : WellFormed sb disk) {fs : Fs}
    (reachable : Transition.Reachable (InodeOp.step devsw) (fun fs op => op.Allowed fs)
      (boot disk) fs) : fs.sb = sb ∧ fs.Sound ∧ fs.Settled := by
  refine reachable.invariant (fun fs => fs.sb = sb ∧ fs.Sound ∧ fs.Settled) ?_ ?_
  · exact ⟨formed.superblock, boot_sound formed, fun _ positive => absurd positive (lt_irrefl _)⟩
  · rintro before op after ⟨sameSb, sound, settled⟩ allowed stepped
    unfold InodeOp.step at stepped
    have kept := InodeOp.exec_sound devsw sound settled allowed
    cases result : op.exec devsw before with
    | error stop => simp [result] at stepped
    | ok pair =>
      obtain ⟨_, next⟩ := pair
      simp only [result, Option.some.injEq] at stepped
      subst stepped
      obtain ⟨stays, nextSound, nextSettled⟩ := kept.of_ok result
      exact ⟨stays.trans sameSb, nextSound, nextSettled⟩

/-- From a well-formed disk, any sequence of operations that all return keeps the
disk well-formed and the cache in agreement with it.  Reading never changes
anything, and no operation frees a block that is free. -/
theorem block_ownership (devsw : Devsw) {sb : Superblock} {disk : Disk}
    (formed : WellFormed sb disk) {fs : Fs}
    (reachable : Transition.Reachable (InodeOp.step devsw) (fun fs op => op.Allowed fs)
      (boot disk) fs) :
    WellFormed sb fs.disk ∧
      (∀ ip, 0 < (fs.icache ip).ref → (fs.icache ip).valid = true →
        (fs.icache ip).copy = sb.dinode fs.disk (fs.icache ip).inum) ∧
      (∀ ip off n, fs.Locked ip → ∃ bytes, readi devsw ip off n fs = .ok (bytes, fs)) ∧
      ∀ op : InodeOp, op.Allowed fs →
        op.exec devsw fs ≠ .error (.panic .freeingFreeBlock) := by
  obtain ⟨rfl, sound, settled⟩ := sound_of_reachable devsw formed reachable
  refine ⟨sound.wellFormed, ?_, ?_, ?_⟩
  · intro ip positive valid
    exact sound.synced ip ⟨positive, valid, settled ip positive valid⟩
  · intro ip off n locked
    have spec := readi_sound devsw sound (locked.live settled) off n
    cases result : readi devsw ip off n fs with
    | error stop => exact (spec.of_error result).elim
    | ok pair =>
      obtain ⟨bytes, after⟩ := pair
      exact ⟨bytes, by rw [spec.of_ok result]⟩
  · intro op allowed stops
    exact (InodeOp.exec_sound devsw sound settled allowed).of_error stops rfl

/-- The disk of a file system without any inode: the superblock and the bit map
with the metadata blocks marked. -/
def blankDisk : Disk := fun b =>
  if b = 1 then
    [mkfsSb.size, mkfsSb.nblocks, mkfsSb.ninodes, mkfsSb.nlog, mkfsSb.logstart, mkfsSb.inodestart,
      mkfsSb.bmapstart].zipIdx.foldl (fun block field => block.setWord field.2 field.1) fun _ => 0
  else if b = mkfsSb.bmapstart then
    fun k => UInt8.ofNat (2 ^ min 8 (mkfsSb.datastart - 8 * k.val) - 1)
  else fun _ => 0

theorem blankDisk_formed : WellFormed mkfsSb blankDisk := by
  have free : ∀ i < mkfsSb.ninodes, (mkfsSb.dinode blankDisk i).type = 0 := by decide +kernel
  have bits : ∀ b < mkfsSb.size, mkfsSb.used blankDisk b = decide (b < mkfsSb.datastart) := by
    decide +kernel
  have none : ∀ i pos, mkfsSb.addr blankDisk i pos = 0 := by
    intro i pos
    unfold Superblock.addr
    rw [if_neg]
    rintro ⟨inside, allocated, -⟩
    exact allocated (free i inside)
  refine ⟨mkfsSb_ok, by decide +kernel, ?_, ?_, ?_, ?_⟩
  · intro i inside allocated
    exact absurd (free i inside) allocated
  · intro i pos mapped
    exact absurd (none i pos) mapped
  · intro i j pos other mapped
    exact absurd (none i pos) mapped
  · intro b inside
    rw [bits b inside, decide_eq_true_eq]
    constructor
    · exact .inl
    · rintro (reserved | ⟨i, pos, held⟩)
      · exact reserved
      · rw [none] at held
        rw [← held]
        decide

def noDevices : Devsw := ⟨fun _ => none, fun _ => none⟩

/-- The end of a run on the blank disk, with what can be evaluated of it. -/
theorem exists_of_blank (ops : List InodeOp) (property : Fs → Prop) [DecidablePred property]
    (ends : (Transition.run (InodeOp.step noDevices) (fun fs op => decide (op.Allowed fs))
      (boot blankDisk) ops).any (fun fs => decide (property fs)) = true) :
    ∃ fs, Transition.Reachable (InodeOp.step noDevices) (fun fs op => op.Allowed fs)
      (boot blankDisk) fs ∧ fs.Sound ∧ fs.Settled ∧ property fs := by
  obtain ⟨fs, reachable, holds⟩ := Transition.Reachable.exists_of_run _
    (fun _ _ => of_decide_eq_true) property ops ends
  obtain ⟨-, sound, settled⟩ := sound_of_reachable noDevices blankDisk_formed reachable
  exact ⟨fs, reachable, sound, settled, holds⟩

theorem block_ownership_blank :
    ∃ fs, Transition.Reachable (InodeOp.step noDevices) (fun fs op => op.Allowed fs)
        (boot blankDisk) fs ∧
      (fs.used 59 = true ∧ (fs.dinode 1).type = 2) ∧ WellFormed mkfsSb fs.disk := by
  obtain ⟨fs, reachable, -, -, allocated⟩ := exists_of_blank
    [.ialloc 2, .ilock 0, .writei 0 [1, 2, 3] 0, .iupdate 0 0 0 1, .iunlock 0, .iput 0]
    (fun fs => fs.used 59 = true ∧ (fs.dinode 1).type = 2) (by decide +kernel)
  exact ⟨fs, reachable, allocated, (block_ownership noDevices blankDisk_formed reachable).1⟩

end Xv6
