import Xv6.Fs.Ownership

/-!
# Mapping blocks into inodes

`bmap` and the two loops built on it.  `Fills` says what mapping can do to the
rest of the file system: positions of one inode that were empty get fresh zeroed
blocks, and nothing anybody can read changes.
-/

open Function (update update_of_ne update_self)

namespace Xv6

open Exec

namespace Fs

variable {fs : Fs}

@[simp]
theorem setCopy_icache_self (ip : Slot) (d : Dinode) :
    (fs.setCopy ip d).icache ip = { fs.icache ip with copy := d } := update_self _ _ _

theorem setCopy_icache_ne {ip jp : Slot} (d : Dinode) (other : jp ≠ ip) :
    (fs.setCopy ip d).icache jp = fs.icache jp := update_of_ne other _ _

@[simp]
theorem setCopy_inum (ip jp : Slot) (d : Dinode) :
    ((fs.setCopy ip d).icache jp).inum = (fs.icache jp).inum := by
  by_cases same : jp = ip
  · rw [same, setCopy_icache_self]
  · rw [setCopy_icache_ne d same]

@[simp]
theorem setCopy_ref (ip jp : Slot) (d : Dinode) :
    ((fs.setCopy ip d).icache jp).ref = (fs.icache jp).ref := by
  by_cases same : jp = ip
  · rw [same, setCopy_icache_self]
  · rw [setCopy_icache_ne d same]

theorem live_setCopy_self {ip : Slot} {d : Dinode} (live : fs.Live ip) (type : d.type ≠ 0) :
    (fs.setCopy ip d).Live ip := by
  unfold Live
  rw [setCopy_icache_self]
  exact ⟨live.1, live.2.1, type⟩

theorem live_setCopy_ne {ip jp : Slot} {d : Dinode} (other : jp ≠ ip) :
    (fs.setCopy ip d).Live jp ↔ fs.Live jp := by
  unfold Live
  rw [setCopy_icache_ne d other]

theorem cur_setCopy_ne {ip : Slot} {d : Dinode} {i : Nat}
    (other : i ≠ (fs.icache ip).inum) : (fs.setCopy ip d).cur i = fs.cur i := by
  have elsewhere : ∀ jp, (fs.icache jp).inum = i → jp ≠ ip := by
    rintro jp number rfl
    exact other number.symm
  apply cur_congr
  · intro jp
    rw [setCopy_inum]
    constructor
    · rintro ⟨isLive, number⟩
      exact ⟨(live_setCopy_ne (elsewhere jp number)).mp isLive, number⟩
    · rintro ⟨isLive, number⟩
      exact ⟨(live_setCopy_ne (elsewhere jp number)).mpr isLive, number⟩
  · intro jp _ number
    rw [setCopy_icache_ne d (elsewhere jp number)]
  · rfl

theorem addr_setCopy_ne {ip : Slot} {d : Dinode} {i : Nat}
    (other : i ≠ (fs.icache ip).inum) (pos : Nat) :
    (fs.setCopy ip d).addr i pos = fs.addr i pos :=
  addr_congr (by rfl) (cur_setCopy_ne other) (fun _ => rfl) pos

namespace Owned

variable (owned : fs.Owned)

include owned

theorem addr_of_live {ip : Slot} (live : fs.Live ip) (pos : Nat) :
    fs.addr (fs.icache ip).inum pos =
      if pos < NADDR then (fs.icache ip).copy.addrAt fs.disk pos else 0 := by
  have inode := owned.inums ip live.ref_pos
  unfold addr
  rw [cur_of_live owned.unique live]
  by_cases inside : pos < NADDR
  · rw [if_pos ⟨inode, live.2.2, inside⟩, if_pos inside]
  · rw [if_neg (fun all => inside all.2.2), if_neg inside]

theorem unique_setCopy (ip : Slot) (d : Dinode) : (fs.setCopy ip d).Unique := by
  intro first second
  simpa using owned.unique first second

theorem cur_setCopy_self {ip : Slot} {d : Dinode} (live : fs.Live ip) (type : d.type ≠ 0) :
    (fs.setCopy ip d).cur (fs.icache ip).inum = d := by
  have current := cur_of_live (owned.unique_setCopy ip d) (live_setCopy_self live type)
  rwa [setCopy_inum, setCopy_icache_self] at current

theorem addr_setCopy_self {ip : Slot} {d : Dinode} (live : fs.Live ip) (type : d.type ≠ 0)
    (pos : Nat) : (fs.setCopy ip d).addr (fs.icache ip).inum pos =
      if pos < NADDR then d.addrAt fs.disk pos else 0 := by
  have inode := owned.inums ip live.ref_pos
  unfold addr
  rw [owned.cur_setCopy_self live type]
  by_cases inside : pos < NADDR
  · rw [if_pos inside]
    exact if_pos ⟨inode, type, inside⟩
  · rw [if_neg inside]
    exact if_neg fun all => inside all.2.2

theorem setCopy {ip : Slot} {d : Dinode} (live : fs.Live ip) (type : d.type ≠ 0)
    (range : d.InRange) (ahead : d.Extends (fs.dinode (fs.icache ip).inum))
    (size : d.size ≤ MAXFILE * BSIZE)
    (area : ∀ i pos, (fs.setCopy ip d).addr i pos ≠ 0 →
      fs.sb.datastart ≤ (fs.setCopy ip d).addr i pos ∧
        (fs.setCopy ip d).addr i pos < fs.sb.size ∧
        fs.used ((fs.setCopy ip d).addr i pos) = true)
    (once : ∀ i j pos other, (fs.setCopy ip d).addr i pos ≠ 0 →
      (fs.setCopy ip d).addr i pos = (fs.setCopy ip d).addr j other → i = j ∧ pos = other) :
    (fs.setCopy ip d).Owned := by
  refine ⟨owned.layout, owned.superblock, ?_, owned.unique_setCopy ip d, ?_, ?_, ?_, owned.reserved,
    area, once⟩
  · intro jp
    rw [setCopy_ref, setCopy_inum]
    exact owned.inums jp
  · intro jp isLive
    by_cases same : jp = ip
    · rw [same, setCopy_icache_self]
      exact range
    · rw [setCopy_icache_ne d same]
      exact owned.range jp ((live_setCopy_ne same).mp isLive)
  · intro jp isLive
    rw [setCopy_inum]
    by_cases same : jp = ip
    · rw [same, setCopy_icache_self]
      exact ahead
    · rw [setCopy_icache_ne d same]
      exact owned.copies jp ((live_setCopy_ne same).mp isLive)
  · intro i inode
    by_cases same : i = (fs.icache ip).inum
    · rw [same, owned.cur_setCopy_self live type]
      exact fun _ => size
    · rw [cur_setCopy_ne same]
      exact owned.bounded i inode

theorem size_le {ip : Slot} (live : fs.Live ip) :
    (fs.icache ip).copy.size ≤ MAXFILE * BSIZE := by
  have bound := owned.bounded _ (owned.inums ip live.ref_pos)
  rw [cur_of_live owned.unique live] at bound
  exact bound live.2.2

end Owned

/-- A block that can be given to an inode. -/
structure Fresh (fs : Fs) (b : Nat) : Prop where
  data : fs.sb.datastart ≤ b
  inside : b < fs.sb.size
  marked : fs.used b = true
  unreferenced : ∀ i pos, fs.addr i pos ≠ 0 → fs.addr i pos ≠ b

theorem Owned.allocate_fresh (owned : fs.Owned) {b : Nat} (inside : b < fs.sb.size)
    (free : fs.used b = false) : (fs.allocate b).Fresh b := by
  obtain ⟨keeps, bits⟩ := owned.allocate inside free
  obtain ⟨data, fresh⟩ := owned.unreferenced free
  refine ⟨data, inside, by rw [bits b inside, if_pos rfl], ?_⟩
  intro i pos
  rw [keeps.addr]
  exact fresh i pos

/-- Block `b` is new at position `pos` of inode `i`; all other positions are as before. -/
abbrev Places (fs after : Fs) (i pos b : Nat) : Prop :=
  ∀ j other, after.addr j other = if j = i ∧ other = pos then b else fs.addr j other

/-- An address function that differs from that of an owned file system by a fresh
block at one position is in order. -/
theorem Owned.place (owned : fs.Owned) {b : Nat} (fresh : fs.Fresh b) {i pos : Nat}
    {addr : Nat → Nat → Nat}
    (placed : ∀ j other, addr j other = if j = i ∧ other = pos then b else fs.addr j other) :
    (∀ j other, addr j other ≠ 0 → fs.sb.datastart ≤ addr j other ∧ addr j other < fs.sb.size ∧
      fs.used (addr j other) = true) ∧
    (∀ j k first second, addr j first ≠ 0 → addr j first = addr k second →
      j = k ∧ first = second) := by
  refine ⟨?_, ?_⟩
  · intro j other mapped
    rw [placed] at mapped ⊢
    split at mapped
    next here =>
      rw [if_pos here]
      exact ⟨fresh.data, fresh.inside, fresh.marked⟩
    next away =>
      rw [if_neg away]
      exact owned.area j other mapped
  · intro j k first second mapped same
    rw [placed] at mapped same
    rw [placed] at same
    split at mapped
    next here =>
      rw [if_pos here] at same
      split at same
      next there =>
        exact ⟨here.1.trans there.1.symm, here.2.trans there.2.symm⟩
      · exact absurd same.symm (fresh.unreferenced k second (same ▸ mapped))
    next away =>
      rw [if_neg away] at same
      split at same
      · exact absurd same (fresh.unreferenced j first mapped)
      · exact owned.once j k first second mapped same

theorem addrAt_setAddr {d : Dinode} {disk : Disk} {k b : Nat}
    (inside : k ≤ NDIRECT) (empty : d.addr k = 0)
    (zero : k = NDIRECT → ∀ j, (disk b).word j = 0) (pos : Nat) :
    (d.setAddr k b).addrAt disk pos = if pos = k then b else d.addrAt disk pos := by
  unfold Dinode.addrAt
  by_cases direct : pos ≤ NDIRECT
  · rw [if_pos direct, if_pos direct]
    by_cases same : pos = k
    · rw [if_pos same, same, Dinode.addr_setAddr_self d b (by omega)]
    · rw [if_neg same, Dinode.addr_setAddr_ne d b same]
  · rw [if_neg direct, if_neg direct, if_neg (by omega : pos ≠ k)]
    by_cases pointer : k = NDIRECT
    · subst pointer
      rw [Dinode.addr_setAddr_self d b (by omega), empty, if_pos rfl, zero rfl, ite_self]
    · rw [Dinode.addr_setAddr_ne d b (Ne.symm pointer)]

theorem Owned.setAddr (owned : fs.Owned) {ip : Slot} (live : fs.Live ip) {k b : Nat}
    (inside : k ≤ NDIRECT) (empty : (fs.icache ip).copy.addr k = 0) (fresh : fs.Fresh b)
    (zero : k = NDIRECT → fs.disk b = fun _ => 0) :
    let after := fs.setCopy ip ((fs.icache ip).copy.setAddr k b)
    after.Owned ∧ Places fs after (fs.icache ip).inum k b := by
  intro after
  have type : ((fs.icache ip).copy.setAddr k b).type ≠ 0 := live.2.2
  have small : b < 2 ^ 32 := by
    have limit := owned.layout.addressable
    have bound := fresh.inside
    omega
  have placed : Places fs after (fs.icache ip).inum k b := by
    intro j pos
    by_cases same : j = (fs.icache ip).inum
    · subst same
      rw [owned.addr_setCopy_self live type, owned.addr_of_live live,
        addrAt_setAddr inside empty (fun pointer j => by rw [zero pointer, Block.word_zero])]
      by_cases here : pos = k
      · have bound : pos < NADDR := by
          simp only [NADDR, NINDIRECT, BSIZE]
          omega
        rw [if_pos bound, if_pos here, if_pos ⟨rfl, here⟩]
      · simp only [here, and_false, if_false]
    · rw [addr_setCopy_ne same, if_neg (fun both => same both.1)]
  obtain ⟨area, once⟩ := owned.place fresh placed
  refine ⟨owned.setCopy live type ((owned.range ip live).setAddr k small) ?_ (owned.size_le live)
    area once, placed⟩
  have ahead := owned.copies ip live
  refine ⟨ahead.type, ahead.major, ahead.minor, ahead.nlink, ahead.size, ?_⟩
  intro other old
  rw [Dinode.addr_setAddr_ne, ahead.addr other old]
  rintro rfl
  rw [ahead.addr other old] at empty
  exact old empty

theorem Owned.addr_entry (owned : fs.Owned) {ip : Slot} (live : fs.Live ip)
    (indirect : (fs.icache ip).copy.addr NDIRECT ≠ 0) {e : Nat} (entry : e < NINDIRECT) :
    fs.addr (fs.icache ip).inum (NDIRECT + 1 + e) =
      (fs.disk ((fs.icache ip).copy.addr NDIRECT)).word e := by
  have bound : NDIRECT + 1 + e < NADDR := by
    simp only [NADDR]
    omega
  rw [owned.addr_of_live live, if_pos bound, Dinode.addrAt, if_neg (by omega), if_neg indirect,
    Nat.add_sub_cancel_left]

theorem Owned.addr_direct (owned : fs.Owned) {ip : Slot} (live : fs.Live ip) {k : Nat}
    (direct : k ≤ NDIRECT) : fs.addr (fs.icache ip).inum k = (fs.icache ip).copy.addr k := by
  have bound : k < NADDR := by
    simp only [NADDR]
    omega
  rw [owned.addr_of_live live, if_pos bound, Dinode.addrAt, if_pos direct]

theorem addrAt_setWord {d : Dinode} {disk : Disk} {e b : Nat} (indirect : d.addr NDIRECT ≠ 0)
    (entry : e < NINDIRECT) (small : b < 2 ^ 32) (pos : Nat) :
    d.addrAt (update disk (d.addr NDIRECT)
      ((disk (d.addr NDIRECT)).setWord e b)) pos =
      if pos = NDIRECT + 1 + e then b else d.addrAt disk pos := by
  unfold Dinode.addrAt
  by_cases direct : pos ≤ NDIRECT
  · rw [if_pos direct, if_pos direct, if_neg (by omega)]
  · rw [if_neg direct, if_neg direct, if_neg indirect, if_neg indirect, update_self]
    by_cases same : pos = NDIRECT + 1 + e
    · rw [if_pos same, same, Nat.add_sub_cancel_left,
        Block.word_setWord_self _ entry small]
    · rw [if_neg same, Block.word_setWord_ne _ (by omega)]

theorem Owned.setEntry (owned : fs.Owned) {ip : Slot} (live : fs.Live ip) {e b : Nat}
    (indirect : (fs.icache ip).copy.addr NDIRECT ≠ 0) (entry : e < NINDIRECT)
    (fresh : fs.Fresh b) :
    let pointer := (fs.icache ip).copy.addr NDIRECT
    let after := fs.write pointer ((fs.disk pointer).setWord e b)
    after.Owned ∧ (∀ i < fs.sb.ninodes, after.dinode i = fs.dinode i) ∧
      (∀ c < fs.sb.size, after.used c = fs.used c) ∧
      Places fs after (fs.icache ip).inum (NDIRECT + 1 + e) b := by
  intro pointer after
  have held : fs.addr (fs.icache ip).inum NDIRECT = pointer := owned.addr_direct live le_rfl
  have mapped : fs.addr (fs.icache ip).inum NDIRECT ≠ 0 := held ▸ indirect
  obtain ⟨data, inside, -⟩ := owned.area _ _ mapped
  rw [held] at data inside
  have small : b < 2 ^ 32 := by
    have limit := owned.layout.addressable
    have bound := fresh.inside
    omega
  have dinodes : ∀ i < fs.sb.ninodes, after.dinode i = fs.dinode i := by
    intro i inode
    exact Superblock.dinode_update_ne (owned.iblock_lt inode data inside).ne
  have bits : ∀ c < fs.sb.size, after.used c = fs.used c := by
    intro c bound
    exact Superblock.used_update_ne (owned.bblock_lt bound data).ne
  have placed : Places fs after (fs.icache ip).inum (NDIRECT + 1 + e) b := by
    intro j pos
    by_cases inode : j < fs.sb.ninodes
    · have current : after.cur j = fs.cur j := cur_write (dinodes j inode)
      by_cases same : j = (fs.icache ip).inum
      · subst same
        -- the same pointer, with one word of its block changed
        have copied : after.addr (fs.icache ip).inum pos =
            if pos < NADDR then (fs.icache ip).copy.addrAt after.disk pos else 0 := by
          unfold addr
          rw [current, cur_of_live owned.unique live]
          by_cases bound : pos < NADDR
          · rw [if_pos bound]
            exact if_pos ⟨inode, live.2.2, bound⟩
          · rw [if_neg bound]
            exact if_neg fun all => bound all.2.2
        have stored : after.disk = update fs.disk ((fs.icache ip).copy.addr NDIRECT)
            ((fs.disk ((fs.icache ip).copy.addr NDIRECT)).setWord e b) := rfl
        rw [copied, stored, owned.addr_of_live live, addrAt_setWord indirect entry small]
        by_cases here : pos = NDIRECT + 1 + e
        · have bound : pos < NADDR := by
            simp only [NADDR]
            omega
          rw [if_pos bound, if_pos here, if_pos ⟨rfl, here⟩]
        · simp only [here, and_false, if_false]
      · have apart : fs.addr j NDIRECT ≠ pointer := by
          intro clash
          have again := owned.once _ _ _ _ mapped (held.trans clash.symm)
          exact same again.1.symm
        rw [if_neg (fun both => same both.1)]
        exact addr_congr (by rfl) current (fun _ => update_of_ne apart _ _) pos
    · have other : j ≠ (fs.icache ip).inum := by
        rintro rfl
        exact inode (owned.inums ip live.ref_pos)
      rw [if_neg (fun both => other both.1)]
      unfold addr
      rw [if_neg (fun all => inode all.1), if_neg (fun all => inode all.1)]
  obtain ⟨area, once⟩ := owned.place fresh placed
  refine ⟨owned.transfer rfl rfl ?_ ?_ ?_ ?_ area once, dinodes, bits, placed⟩
  · exact update_of_ne (owned.one_lt_data data inside).ne _ _
  · intro jp isLive
    rw [dinodes _ (owned.inums jp isLive.ref_pos)]
    exact owned.copies jp isLive
  · intro i inode
    have current : after.cur i = fs.cur i := cur_write (dinodes i inode)
    rw [current]
    exact owned.bounded i inode
  · intro c bound marked
    rw [bits c bound]
    exact marked

/-! ## Filling holes -/

/-- The positions of inode `i` that have become occupied. -/
def New (fs after : Fs) (i pos : Nat) : Prop := fs.addr i pos = 0 ∧ after.addr i pos ≠ 0

/-- The blocks `log_write` sees when the block at `pos` is mapped: the block
itself, its bit map block, and for an entry the indirect block. -/
def Touched (after : Fs) (i pos c : Nat) : Prop :=
  c = after.addr i pos ∨ c = after.sb.bblock (after.addr i pos) ∨
    NDIRECT < pos ∧ c = after.addr i NDIRECT

/-- `after` differs from `fs` in positions of the inode at `ip` that have become
occupied, and in the contents of data blocks. -/
structure Grows (fs after : Fs) (ip : Slot) : Prop where
  owned : after.Owned
  sb : after.sb = fs.sb
  dinode : ∀ i < fs.sb.ninodes, after.dinode i = fs.dinode i
  copy : after.icache ip = { fs.icache ip with
    copy := { (fs.icache ip).copy with addrs := (after.icache ip).copy.addrs } }
  slots : ∀ jp, jp ≠ ip → after.icache jp = fs.icache jp
  keep : ∀ i pos, fs.addr i pos ≠ 0 → after.addr i pos = fs.addr i pos
  other : ∀ i pos, i ≠ (fs.icache ip).inum → after.addr i pos = fs.addr i pos
  used : ∀ b < fs.sb.size, after.used b = true ↔
    fs.used b = true ∨ ∃ pos, New fs after (fs.icache ip).inum pos ∧
      after.addr (fs.icache ip).inum pos = b
  pointer : ∀ pos, New fs after (fs.icache ip).inum pos → NDIRECT < pos →
    after.addr (fs.icache ip).inum NDIRECT ≠ 0

/-- `after` is `fs` with some holes of the inode at `ip` filled: all contents
are as before. -/
structure Fills (fs after : Fs) (ip : Slot) : Prop extends Grows fs after ip where
  byte : ∀ i k, after.byte i k = fs.byte i k
  logged : ∀ c, c ∈ after.logged ↔ c ∈ fs.logged ∨
    ∃ pos, New fs after (fs.icache ip).inum pos ∧ Touched after (fs.icache ip).inum pos c

theorem Grows.refl (owned : fs.Owned) (ip : Slot) : Grows fs fs ip where
  owned := owned
  sb := rfl
  dinode _ _ := rfl
  copy := rfl
  slots _ _ := rfl
  keep _ _ _ := rfl
  other _ _ _ := rfl
  used b _ := by simp +contextual [New]
  pointer pos new := absurd new.1 new.2

theorem Fills.refl (owned : fs.Owned) (ip : Slot) : Fills fs fs ip :=
  ⟨Grows.refl owned ip, fun _ _ => rfl, fun c => by simp +contextual [New]⟩

theorem New.split {after : Fs} {i pos : Nat} (new : New fs after i pos) (mid : Fs) :
    New fs mid i pos ∨ New mid after i pos := by
  by_cases empty : mid.addr i pos = 0
  · exact .inr ⟨empty, new.2⟩
  · exact .inl ⟨new.1, empty⟩

section Compose

variable {mid after : Fs} {ip : Slot}

theorem Grows.inum (grows : Grows fs after ip) :
    (after.icache ip).inum = (fs.icache ip).inum := by
  rw [grows.copy]

theorem Grows.live (grows : Grows fs after ip) (live : fs.Live ip) : after.Live ip := by
  unfold Live
  rw [grows.copy]
  exact live

theorem Grows.new_left (second : Grows mid after ip) {i pos : Nat} (new : New fs mid i pos) :
    New fs after i pos ∧ after.addr i pos = mid.addr i pos := by
  have same := second.keep i pos new.2
  exact ⟨⟨new.1, same ▸ new.2⟩, same⟩

theorem Grows.new_right (first : Grows fs mid ip) {i pos : Nat} (new : New mid after i pos) :
    New fs after i pos := by
  refine ⟨?_, new.2⟩
  by_contra mapped
  exact mapped (first.keep i pos mapped ▸ new.1)

theorem Grows.touched_left (first : Grows fs mid ip) (second : Grows mid after ip) {pos c : Nat}
    (new : New fs mid (fs.icache ip).inum pos) :
    Touched after (fs.icache ip).inum pos c ↔ Touched mid (fs.icache ip).inum pos c := by
  unfold Touched
  rw [(second.new_left new).2, second.sb]
  by_cases entry : NDIRECT < pos
  · rw [second.keep _ _ (first.pointer pos new entry)]
  · simp only [entry, false_and]

theorem Grows.trans (first : Grows fs mid ip) (second : Grows mid after ip) :
    Grows fs after ip where
  owned := second.owned
  sb := second.sb.trans first.sb
  dinode i inode := (second.dinode i (first.sb ▸ inode)).trans (first.dinode i inode)
  copy := by
    rw [second.copy, first.copy]
  slots jp other := (second.slots jp other).trans (first.slots jp other)
  keep i pos mapped := by
    have kept := first.keep i pos mapped
    rw [second.keep i pos (kept ▸ mapped), kept]
  other i pos away := by
    rw [second.other i pos (first.inum ▸ away), first.other i pos away]
  used b inside := by
    rw [second.used b (first.sb ▸ inside), first.used b inside, first.inum, or_assoc]
    apply or_congr_right
    constructor
    · rintro (⟨pos, new, rfl⟩ | ⟨pos, new, rfl⟩)
      · exact ⟨pos, (second.new_left new).1, (second.new_left new).2⟩
      · exact ⟨pos, first.new_right new, rfl⟩
    · rintro ⟨pos, new, rfl⟩
      rcases new.split mid with old | late
      · exact .inl ⟨pos, old, (second.new_left old).2.symm⟩
      · exact .inr ⟨pos, late, rfl⟩
  pointer pos new entry := by
    rcases new.split mid with old | late
    · have present := first.pointer pos old entry
      rw [second.keep _ _ present]
      exact present
    · exact first.inum ▸ second.pointer pos (first.inum ▸ late) entry

theorem Grows.touched_trans (first : Grows fs mid ip) (second : Grows mid after ip) (c : Nat) :
    (∃ pos, New fs after (fs.icache ip).inum pos ∧ Touched after (fs.icache ip).inum pos c) ↔
      (∃ pos, New fs mid (fs.icache ip).inum pos ∧ Touched mid (fs.icache ip).inum pos c) ∨
        ∃ pos, New mid after (fs.icache ip).inum pos ∧
          Touched after (fs.icache ip).inum pos c := by
  constructor
  · rintro ⟨pos, new, touched⟩
    rcases new.split mid with old | late
    · exact .inl ⟨pos, old, (first.touched_left second old).mp touched⟩
    · exact .inr ⟨pos, late, touched⟩
  · rintro (⟨pos, new, touched⟩ | ⟨pos, new, touched⟩)
    · exact ⟨pos, (second.new_left new).1, (first.touched_left second new).mpr touched⟩
    · exact ⟨pos, first.new_right new, touched⟩

theorem Fills.trans (first : Fills fs mid ip) (second : Fills mid after ip) :
    Fills fs after ip := by
  refine ⟨first.toGrows.trans second.toGrows,
    fun i k => (second.byte i k).trans (first.byte i k), ?_⟩
  intro c
  rw [second.logged, first.logged, first.inum, or_assoc,
    first.toGrows.touched_trans second.toGrows]

end Compose

theorem Fills.single {after : Fs} {ip : Slot} {pos b : Nat} (owned : after.Owned)
    (sb : after.sb = fs.sb) (dinode : ∀ i < fs.sb.ninodes, after.dinode i = fs.dinode i)
    (copy : after.icache ip = { fs.icache ip with
      copy := { (fs.icache ip).copy with addrs := (after.icache ip).copy.addrs } })
    (slots : ∀ jp, jp ≠ ip → after.icache jp = fs.icache jp)
    (positive : b ≠ 0) (empty : fs.addr (fs.icache ip).inum pos = 0)
    (placed : Places fs after (fs.icache ip).inum pos b)
    (used : ∀ c < fs.sb.size, after.used c = if c = b then true else fs.used c)
    (byte : ∀ i k, after.byte i k = fs.byte i k)
    (pointer : NDIRECT < pos → fs.addr (fs.icache ip).inum NDIRECT ≠ 0)
    (logged : ∀ c, c ∈ after.logged ↔ c ∈ fs.logged ∨ Touched after (fs.icache ip).inum pos c) :
    Fills fs after ip := by
  have here : after.addr (fs.icache ip).inum pos = b := by rw [placed, if_pos ⟨rfl, rfl⟩]
  have new : ∀ other, New fs after (fs.icache ip).inum other ↔ other = pos := by
    intro other
    constructor
    · rintro ⟨before, later⟩
      by_contra away
      rw [placed, if_neg (fun both => away both.2)] at later
      exact later before
    · rintro rfl
      exact ⟨empty, here ▸ positive⟩
  refine ⟨⟨owned, sb, dinode, copy, slots, ?_, ?_, ?_, ?_⟩, byte, ?_⟩
  · intro j other mapped
    rw [placed, if_neg]
    rintro ⟨rfl, rfl⟩
    exact mapped empty
  · intro j other away
    rw [placed, if_neg (fun both => away both.1)]
  · intro c inside
    simp only [new, exists_eq_left, here, used c inside]
    by_cases same : c = b
    · simp [same]
    · simp [same, Ne.symm same]
  · intro other isNew entry
    rw [(new other).mp isNew] at entry
    rw [placed, if_neg (by omega)]
    exact pointer entry
  · intro c
    simp only [new, exists_eq_left]
    exact logged c

theorem blockPos_ne (bn : Nat) : blockPos bn ≠ NDIRECT := by
  unfold blockPos
  split <;> omega

theorem Owned.disk_allocate (owned : fs.Owned) {b : Nat} (inside : b < fs.sb.size)
    (free : fs.used b = false) {i pos : Nat} (mapped : fs.addr i pos ≠ 0) :
    (fs.allocate b).disk (fs.addr i pos) = fs.disk (fs.addr i pos) := by
  have data := (owned.area i pos mapped).1
  exact Fs.disk_allocate ((owned.unreferenced free).2 i pos mapped)
    (owned.bblock_lt inside data).ne'

theorem Owned.fillAddr (owned : fs.Owned) {ip : Slot} (live : fs.Live ip) {k b : Nat}
    (direct : k ≤ NDIRECT) (empty : (fs.icache ip).copy.addr k = 0) (inside : b < fs.sb.size)
    (free : fs.used b = false) :
    let after := (fs.allocate b).setCopy ip ((fs.icache ip).copy.setAddr k b)
    Fills fs after ip ∧ Places fs after (fs.icache ip).inum k b := by
  intro after
  obtain ⟨keeps, bits⟩ := owned.allocate inside free
  have zeroed : (fs.allocate b).disk b = fun _ => 0 := disk_allocate_self b
  have isLive : (fs.allocate b).Live ip := live
  obtain ⟨isOwned, setAddr⟩ := keeps.owned.setAddr isLive direct empty
    (owned.allocate_fresh inside free) (fun _ => zeroed)
  have placed : Places fs after (fs.icache ip).inum k b := by
    intro j pos
    rw [← keeps.addr]
    exact setAddr j pos
  have positive := owned.ne_zero_of_data (owned.unreferenced free).1 inside
  refine ⟨Fills.single isOwned rfl keeps.dinode ?_ ?_ positive ?_ placed bits ?_ ?_ ?_, placed⟩
  · have stored : after.icache ip = { fs.icache ip with
        copy := (fs.icache ip).copy.setAddr k b } := setCopy_icache_self ip _
    rw [stored]
    rfl
  · intro jp other
    exact setCopy_icache_ne _ other
  · rw [owned.addr_direct live direct, empty]
  · intro j n
    have position := placed j (blockPos (n / BSIZE))
    split at position
    next here =>
      unfold byte
      rw [position, if_neg positive, here.1, here.2, owned.addr_direct live direct, empty,
        if_pos rfl]
      exact congrFun zeroed _
    · exact byte_congr position (owned.disk_allocate inside free)
  · intro entry
    omega
  · intro c
    have self : after.addr (fs.icache ip).inum k = b := by rw [placed, if_pos ⟨rfl, rfl⟩]
    have past : ¬NDIRECT < k := by omega
    have grown : after.logged = b :: fs.sb.bblock b :: fs.logged := rfl
    have sameSb : after.sb = fs.sb := rfl
    simp only [Touched, grown, self, sameSb, past, false_and, or_false, List.mem_cons]
    rw [← or_assoc, or_comm]

theorem Owned.fillEntry (owned : fs.Owned) {ip : Slot} (live : fs.Live ip) {e b : Nat}
    (indirect : (fs.icache ip).copy.addr NDIRECT ≠ 0) (entry : e < NINDIRECT)
    (empty : (fs.disk ((fs.icache ip).copy.addr NDIRECT)).word e = 0) (inside : b < fs.sb.size)
    (free : fs.used b = false) :
    let pointer := (fs.icache ip).copy.addr NDIRECT
    let after := (fs.allocate b).write pointer ((fs.disk pointer).setWord e b)
    Fills fs after ip ∧ Places fs after (fs.icache ip).inum (NDIRECT + 1 + e) b := by
  intro pointer after
  have held : fs.addr (fs.icache ip).inum NDIRECT = pointer := owned.addr_direct live le_rfl
  have mapped : fs.addr (fs.icache ip).inum NDIRECT ≠ 0 := held ▸ indirect
  obtain ⟨keeps, bits⟩ := owned.allocate inside free
  have unchanged : (fs.allocate b).disk pointer = fs.disk pointer :=
    held ▸ owned.disk_allocate inside free mapped
  have written : after = (fs.allocate b).write pointer
      (((fs.allocate b).disk pointer).setWord e b) := by rw [unchanged]
  have isLive : (fs.allocate b).Live ip := live
  obtain ⟨isOwned, dinodes, sameBits, setEntry⟩ := keeps.owned.setEntry isLive indirect entry
    (owned.allocate_fresh inside free)
  have placed : Places fs after (fs.icache ip).inum (NDIRECT + 1 + e) b := by
    intro j pos
    rw [← keeps.addr, written]
    exact setEntry j pos
  have positive := owned.ne_zero_of_data (owned.unreferenced free).1 inside
  refine ⟨Fills.single (written ▸ isOwned) rfl ?_ rfl (fun _ _ => rfl) positive ?_ placed ?_ ?_ ?_
    ?_, placed⟩
  · intro i inode
    rw [← keeps.dinode i inode, written]
    exact dinodes i inode
  · rw [owned.addr_entry live indirect entry, empty]
  · intro c bound
    rw [← bits c bound, written]
    exact sameBits c bound
  · intro j n
    have position := placed j (blockPos (n / BSIZE))
    split at position
    next here =>
      have other : b ≠ pointer := by
        rintro rfl
        exact (owned.unreferenced free).2 _ _ mapped held
      unfold byte
      rw [position, if_neg positive, here.1, here.2, owned.addr_entry live indirect entry, empty,
        if_pos rfl]
      change update (fs.allocate b).disk pointer _ b _ = 0
      rw [update_of_ne other]
      exact congrFun (disk_allocate_self b) _
    · refine byte_congr position ?_
      intro present
      have other : fs.addr j (blockPos (n / BSIZE)) ≠ pointer := by
        intro clash
        exact blockPos_ne _ (owned.once _ _ _ _ present (clash.trans held.symm)).2
      change update (fs.allocate b).disk pointer _ _ = _
      rw [update_of_ne other, owned.disk_allocate inside free present]
  · intro _
    exact mapped
  · intro c
    have self : after.addr (fs.icache ip).inum (NDIRECT + 1 + e) = b := by
      rw [placed, if_pos ⟨rfl, rfl⟩]
    have kept : after.addr (fs.icache ip).inum NDIRECT = pointer := by
      rw [placed, if_neg (by omega), held]
    have past : NDIRECT < NDIRECT + 1 + e := by omega
    have grown : after.logged = pointer :: b :: fs.sb.bblock b :: fs.logged := rfl
    have sameSb : after.sb = fs.sb := rfl
    simp only [Touched, grown, self, kept, sameSb, past, true_and, List.mem_cons]
    constructor
    · rintro (same | same | same | old)
      · exact .inr (.inr (.inr same))
      · exact .inr (.inl same)
      · exact .inr (.inr (.inl same))
      · exact .inl old
    · rintro (old | same | same | same)
      · exact .inr (.inr (.inr old))
      · exact .inr (.inl same)
      · exact .inr (.inr (.inl same))
      · exact .inl same

end Fs

/-! ## `bmap` -/

open Fs

/-- The position `pos` is mapped to `b` afterwards, `also` is the only other
position that may have been filled, and a mapped position costs nothing. -/
structure Mapped (fs after : Fs) (ip : Slot) (pos b : Nat) (also : Nat → Prop) : Prop where
  fills : Fills fs after ip
  result : after.addr (fs.icache ip).inum pos = b
  positive : b ≠ 0
  only : ∀ other, New fs after (fs.icache ip).inum other → other = pos ∨ also other
  same : fs.addr (fs.icache ip).inum pos ≠ 0 → after = fs

theorem Mapped.refl {fs : Fs} (owned : fs.Owned) (ip : Slot) {pos : Nat} (also : Nat → Prop)
    (mapped : fs.addr (fs.icache ip).inum pos ≠ 0) :
    Mapped fs fs ip pos (fs.addr (fs.icache ip).inum pos) also :=
  ⟨Fills.refl owned ip, rfl, mapped, fun _ new => absurd new.1 new.2, fun _ => rfl⟩

theorem Mapped.of_placed {fs after : Fs} {ip : Slot} {pos b : Nat} (also : Nat → Prop)
    (fills : Fills fs after ip) (positive : b ≠ 0)
    (empty : fs.addr (fs.icache ip).inum pos = 0)
    (placed : Places fs after (fs.icache ip).inum pos b) :
    Mapped fs after ip pos b also := by
  refine ⟨fills, by rw [placed, if_pos ⟨rfl, rfl⟩], positive, ?_, fun mapped => absurd empty mapped⟩
  intro other new
  by_contra away
  rw [not_or] at away
  have later := new.2
  rw [placed, if_neg (fun both => away.1 both.2)] at later
  exact later new.1

theorem Mapped.weaken {fs after : Fs} {ip : Slot} {pos b : Nat} {also more : Nat → Prop}
    (mapped : Mapped fs after ip pos b also) (implies : ∀ other, also other → more other) :
    Mapped fs after ip pos b more :=
  ⟨mapped.fills, mapped.result, mapped.positive,
    fun other new => (mapped.only other new).imp_right (implies other), mapped.same⟩

theorem Mapped.entry {fs mid after : Fs} {ip : Slot} {e pointer b : Nat}
    (first : Mapped fs mid ip NDIRECT pointer fun _ => False)
    (second : Mapped mid after ip (NDIRECT + 1 + e) b fun _ => False) :
    Mapped fs after ip (NDIRECT + 1 + e) b fun pos => pos = NDIRECT := by
  refine ⟨first.fills.trans second.fills, first.fills.inum ▸ second.result, second.positive,
    ?_, ?_⟩
  · intro pos new
    rcases new.split mid with early | late
    · exact .inr ((first.only pos early).resolve_right id)
    · exact .inl ((second.only pos (first.fills.inum ▸ late)).resolve_right id)
  · intro mapped
    have unchanged := first.same (addr_pointer (by omega) mapped)
    subst unchanged
    exact second.same mapped

theorem blockPos_far {bn : Nat} (far : ¬bn < NDIRECT) :
    blockPos bn = NDIRECT + 1 + (bn - NDIRECT) := by
  rw [blockPos, if_neg far]
  omega

theorem bmapAddr_ensures {fs : Fs} (owned : fs.Owned) {ip : Slot} (live : fs.Live ip) {k : Nat}
    (direct : k ≤ NDIRECT) :
    (bmapAddr ip k).Ensures fs (fun b after => Mapped fs after ip k b fun _ => False)
      (fun stop => stop = .panic .outOfBlocks ∧ fs.addr (fs.icache ip).inum k = 0) := by
  have held := owned.addr_direct live direct
  unfold bmapAddr
  simp only [ensures_bind, ensures_getInode]
  split
  next empty =>
    refine (balloc_ensures fs).bind ?_ ?_
    · rintro b after ⟨bound, free, rfl⟩
      simp only [ensures_bind, ensures_setInode, ensures_pure]
      obtain ⟨fills, placed⟩ := owned.fillAddr live direct empty bound free
      have positive := owned.ne_zero_of_data (owned.unreferenced free).1 bound
      exact Mapped.of_placed _ fills positive (held.trans empty) placed
    · rintro stop ⟨rfl, -⟩
      exact ⟨rfl, held.trans empty⟩
  next mapped =>
    simp only [ensures_pure]
    rw [← held] at mapped ⊢
    exact Mapped.refl owned ip _ mapped

theorem bmapEntry_ensures {fs : Fs} (owned : fs.Owned) {ip : Slot} (live : fs.Live ip) {e : Nat}
    (indirect : (fs.icache ip).copy.addr NDIRECT ≠ 0) (entry : e < NINDIRECT) :
    (bmapEntry ((fs.icache ip).copy.addr NDIRECT) e).Ensures fs
      (fun b after => Mapped fs after ip (NDIRECT + 1 + e) b fun _ => False)
      (fun stop => stop = .panic .outOfBlocks ∧
        fs.addr (fs.icache ip).inum (NDIRECT + 1 + e) = 0) := by
  have held := owned.addr_entry live indirect entry
  unfold bmapEntry
  simp only [ensures_bind, ensures_bread]
  split
  next empty =>
    refine (balloc_ensures fs).bind ?_ ?_
    · rintro b after ⟨bound, free, rfl⟩
      simp only [ensures_bind, ensures_logWrite, ensures_pure]
      obtain ⟨fills, placed⟩ := owned.fillEntry live indirect entry empty bound free
      have positive := owned.ne_zero_of_data (owned.unreferenced free).1 bound
      exact Mapped.of_placed _ fills positive (held.trans empty) placed
    · rintro stop ⟨rfl, -⟩
      exact ⟨rfl, held.trans empty⟩
  next mapped =>
    simp only [ensures_pure]
    rw [← held] at mapped ⊢
    exact Mapped.refl owned ip _ mapped

/-- `bmap` maps the block, with the indirect block if it is needed, and panics
only for lack of blocks. -/
theorem bmap_ensures {fs : Fs} (owned : fs.Owned) {ip : Slot} (live : fs.Live ip) {bn : Nat}
    (inside : bn < MAXFILE) :
    (bmap ip bn).Ensures fs
      (fun b after => Mapped fs after ip (blockPos bn) b fun pos => pos = NDIRECT ∧ NDIRECT ≤ bn)
      (fun stop => stop = .panic .outOfBlocks ∧
        fs.addr (fs.icache ip).inum (blockPos bn) = 0) := by
  unfold bmap
  split
  next direct =>
    rw [blockPos, if_pos direct]
    exact (bmapAddr_ensures owned live direct.le).mono
      (fun b after mapped => mapped.weaken fun _ => False.elim) (fun _ stopped => stopped)
  next far =>
    have entry : bn - NDIRECT < NINDIRECT := by
      simp only [MAXFILE] at inside
      omega
    rw [if_pos entry, blockPos_far far]
    refine (bmapAddr_ensures owned live le_rfl).bind ?_ ?_
    · intro pointer mid first
      have isLive := first.fills.live live
      have held := first.fills.owned.addr_direct isLive le_rfl
      rw [first.fills.inum, first.result] at held
      rw [held]
      refine (bmapEntry_ensures first.fills.owned isLive (held ▸ first.positive) entry).mono ?_ ?_
      · intro b after second
        exact (first.entry second).weaken fun pos same => ⟨same, by omega⟩
      · rintro stop ⟨rfl, empty⟩
        refine ⟨rfl, ?_⟩
        by_contra mapped
        rw [first.fills.inum, first.fills.keep _ _ mapped] at empty
        exact mapped empty
    · rintro stop ⟨rfl, missing⟩
      refine ⟨rfl, ?_⟩
      by_contra mapped
      exact addr_pointer (by omega) mapped missing

end Xv6
