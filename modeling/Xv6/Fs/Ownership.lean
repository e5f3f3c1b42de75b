import Xv6.Fs.Inode

/-!
# Block ownership

Which inode owns which block.  The current version of an inode is its cached
copy while the cache entry is live, and the disk inode otherwise; `addr` lists
the blocks it refers to by position: the direct blocks, the indirect block, the
entries of the indirect block.

`Owned` is the invariant all of `fs.c` relies on: every block referred to lies
in the data area, is marked in the bit map, and is referred to once.  It leaves
room for a copy that is ahead of the disk, which happens when a hole is read.
-/

open Function (update update_of_ne update_self)

namespace Xv6

/-- The number of positions at which an inode can refer to a block. -/
abbrev NADDR : Nat := NDIRECT + 1 + NINDIRECT

/-- The block an inode refers to at a position, zero if there is none. -/
def Dinode.addrAt (d : Dinode) (disk : Disk) (pos : Nat) : Nat :=
  if pos ≤ NDIRECT then d.addr pos
  else if d.addr NDIRECT = 0 then 0
  else (disk (d.addr NDIRECT)).word (pos - (NDIRECT + 1))

/-- The position of the `bn`th block of a file. -/
def blockPos (bn : Nat) : Nat := if bn < NDIRECT then bn else bn + 1

/-- An inode whose addresses may be ahead of another version's. -/
structure Dinode.Extends (d old : Dinode) : Prop where
  type : d.type = old.type
  major : d.major = old.major
  minor : d.minor = old.minor
  nlink : d.nlink = old.nlink
  size : d.size = old.size
  addr : ∀ k, old.addr k ≠ 0 → d.addr k = old.addr k

theorem Dinode.Extends.refl (d : Dinode) : d.Extends d :=
  ⟨rfl, rfl, rfl, rfl, rfl, fun _ _ => rfl⟩

namespace Fs

variable (fs : Fs)

def dinode (i : Nat) : Dinode := fs.sb.dinode fs.disk i

def used (b : Nat) : Bool := fs.sb.used fs.disk b

/-- The entry holds the current version of an allocated inode. -/
def Live (ip : Slot) : Prop :=
  0 < (fs.icache ip).ref ∧ (fs.icache ip).valid = true ∧ (fs.icache ip).copy.type ≠ 0

instance (ip : Slot) : Decidable (fs.Live ip) := inferInstanceAs (Decidable (_ ∧ _ ∧ _))

def cur (i : Nat) : Dinode :=
  match (List.finRange NINODE).find? fun ip => fs.Live ip ∧ (fs.icache ip).inum = i with
  | some ip => (fs.icache ip).copy
  | none => fs.dinode i

/-- The block inode `i` refers to at a position, zero if there is none. -/
def addr (i pos : Nat) : Nat :=
  if i < fs.sb.ninodes ∧ (fs.cur i).type ≠ 0 ∧ pos < NADDR then (fs.cur i).addrAt fs.disk pos
  else 0

/-- Byte `k` of the contents of inode `i`; a hole reads as zero. -/
def byte (i k : Nat) : UInt8 :=
  if fs.addr i (blockPos (k / BSIZE)) = 0 then 0
  else fs.disk (fs.addr i (blockPos (k / BSIZE))) ⟨k % BSIZE, Nat.mod_lt _ (by decide)⟩

/-- At most one referenced entry for each inode. -/
def Unique : Prop :=
  ∀ ip jp, 0 < (fs.icache ip).ref → 0 < (fs.icache jp).ref →
    (fs.icache ip).inum = (fs.icache jp).inum → ip = jp

structure Owned : Prop where
  layout : fs.sb.Ok
  superblock : Superblock.decode (fs.disk 1) = fs.sb
  inums : ∀ ip, 0 < (fs.icache ip).ref → (fs.icache ip).inum < fs.sb.ninodes
  unique : fs.Unique
  range : ∀ ip, fs.Live ip → (fs.icache ip).copy.InRange
  copies : ∀ ip, fs.Live ip → (fs.icache ip).copy.Extends (fs.dinode (fs.icache ip).inum)
  bounded : ∀ i < fs.sb.ninodes, (fs.cur i).type ≠ 0 → (fs.cur i).size ≤ MAXFILE * BSIZE
  reserved : ∀ b < fs.sb.datastart, fs.used b = true
  area : ∀ i pos, fs.addr i pos ≠ 0 →
    fs.sb.datastart ≤ fs.addr i pos ∧ fs.addr i pos < fs.sb.size ∧ fs.used (fs.addr i pos) = true
  once : ∀ i j pos other, fs.addr i pos ≠ 0 → fs.addr i pos = fs.addr j other →
    i = j ∧ pos = other

variable {fs}

/-! ## The current version of an inode -/

theorem Live.ref_pos {ip : Slot} (live : fs.Live ip) : 0 < (fs.icache ip).ref := live.1

theorem cur_of_live (unique : fs.Unique) {ip : Slot} (live : fs.Live ip) :
    fs.cur (fs.icache ip).inum = (fs.icache ip).copy := by
  unfold cur
  split
  next found search =>
    have holds := List.find?_some search
    simp only [decide_eq_true_eq] at holds
    rw [unique found ip holds.1.ref_pos live.ref_pos holds.2]
  next search =>
    rw [List.find?_eq_none] at search
    have fails := search ip (List.mem_finRange ip)
    simp [live] at fails

theorem cur_of_not_live {i : Nat} (absent : ∀ ip, fs.Live ip → (fs.icache ip).inum ≠ i) :
    fs.cur i = fs.dinode i := by
  unfold cur
  split
  next found search =>
    have holds := List.find?_some search
    simp only [decide_eq_true_eq] at holds
    exact absurd holds.2 (absent found holds.1)
  · rfl

theorem cur_congr {after : Fs} {i : Nat}
    (live : ∀ ip, after.Live ip ∧ (after.icache ip).inum = i ↔
      fs.Live ip ∧ (fs.icache ip).inum = i)
    (copy : ∀ ip, fs.Live ip → (fs.icache ip).inum = i →
      (after.icache ip).copy = (fs.icache ip).copy)
    (dinode : after.dinode i = fs.dinode i) : after.cur i = fs.cur i := by
  have same : (fun ip => decide (after.Live ip ∧ (after.icache ip).inum = i)) =
      fun ip => decide (fs.Live ip ∧ (fs.icache ip).inum = i) := by
    funext ip
    exact decide_eq_decide.mpr (live ip)
  unfold cur
  rw [same]
  split
  next found search =>
    have holds := List.find?_some search
    simp only [decide_eq_true_eq] at holds
    exact copy found holds.1 holds.2
  · exact dinode

/-! ## Effects of single writes -/

def write (fs : Fs) (b : Nat) (data : Block) : Fs :=
  { fs with disk := update fs.disk b data, logged := b :: fs.logged }

def setCopy (fs : Fs) (ip : Slot) (d : Dinode) : Fs :=
  { fs with icache := update fs.icache ip { fs.icache ip with copy := d } }

def setSlot (fs : Fs) (ip : Slot) (inode : Inode) : Fs :=
  { fs with icache := update fs.icache ip inode }

@[simp]
theorem setSlot_icache_self (ip : Slot) (inode : Inode) :
    (fs.setSlot ip inode).icache ip = inode := update_self _ _ _

theorem setSlot_icache_ne {ip jp : Slot} (inode : Inode) (other : jp ≠ ip) :
    (fs.setSlot ip inode).icache jp = fs.icache jp := update_of_ne other _ _

theorem cur_same {after : Fs} {i : Nat} (icache : after.icache = fs.icache)
    (dinode : after.dinode i = fs.dinode i) : after.cur i = fs.cur i := by
  apply cur_congr _ _ dinode
  · intro ip
    unfold Live
    rw [icache]
  · intro ip _ _
    rw [icache]

theorem cur_write {b : Nat} {data : Block} {i : Nat}
    (dinode : (fs.write b data).dinode i = fs.dinode i) :
    (fs.write b data).cur i = fs.cur i :=
  cur_same rfl dinode

theorem addr_congr {after : Fs} {i : Nat} (sb : after.sb = fs.sb) (cur : after.cur i = fs.cur i)
    (indirect : fs.addr i NDIRECT ≠ 0 →
      after.disk (fs.addr i NDIRECT) = fs.disk (fs.addr i NDIRECT)) (pos : Nat) :
    after.addr i pos = fs.addr i pos := by
  unfold addr at indirect ⊢
  rw [sb, cur]
  by_cases inside : i < fs.sb.ninodes ∧ (fs.cur i).type ≠ 0
  · have pointer : i < fs.sb.ninodes ∧ (fs.cur i).type ≠ 0 ∧ NDIRECT < NADDR :=
      ⟨inside.1, inside.2, by decide⟩
    rw [if_pos pointer] at indirect
    split
    · unfold Dinode.addrAt at indirect ⊢
      rw [if_pos le_rfl] at indirect
      split
      · rfl
      · split
        · rfl
        next present =>
          rw [indirect present]
    · rfl
  · rw [if_neg (fun both => inside ⟨both.1, both.2.1⟩),
      if_neg (fun both => inside ⟨both.1, both.2.1⟩)]

theorem addr_pointer {i pos : Nat} (entry : NDIRECT < pos) (mapped : fs.addr i pos ≠ 0) :
    fs.addr i NDIRECT ≠ 0 := by
  unfold addr at mapped ⊢
  split at mapped
  next inside =>
    rw [if_pos ⟨inside.1, inside.2.1, by decide⟩]
    unfold Dinode.addrAt at mapped ⊢
    rw [if_neg (by omega)] at mapped
    rw [if_pos le_rfl]
    intro missing
    rw [if_pos missing] at mapped
    exact mapped rfl
  · exact absurd rfl mapped

theorem byte_congr {after : Fs} {i k : Nat}
    (addr : after.addr i (blockPos (k / BSIZE)) = fs.addr i (blockPos (k / BSIZE)))
    (disk : fs.addr i (blockPos (k / BSIZE)) ≠ 0 →
      after.disk (fs.addr i (blockPos (k / BSIZE))) = fs.disk (fs.addr i (blockPos (k / BSIZE)))) :
    after.byte i k = fs.byte i k := by
  unfold byte
  rw [addr]
  split
  · rfl
  next mapped =>
    rw [disk mapped]

namespace Owned

variable (owned : fs.Owned)

include owned

theorem bmapstart_lt {b : Nat} (inside : b < fs.sb.size) : fs.sb.bmapstart < fs.sb.datastart :=
  (Superblock.bmapstart_le_bblock b).trans_lt (owned.layout.bitmap b inside)

theorem iblock_lt {i b : Nat} (inode : i < fs.sb.ninodes) (data : fs.sb.datastart ≤ b)
    (inside : b < fs.sb.size) : fs.sb.iblock i < b := by
  have before := owned.layout.inodes i inode
  have bitmap := owned.bmapstart_lt inside
  omega

theorem bblock_lt {b c : Nat} (inside : c < fs.sb.size) (data : fs.sb.datastart ≤ b) :
    fs.sb.bblock c < b :=
  (owned.layout.bitmap c inside).trans_le data

theorem iblock_lt_bblock {i : Nat} (inode : i < fs.sb.ninodes) (b : Nat) :
    fs.sb.iblock i < fs.sb.bblock b :=
  (owned.layout.inodes i inode).trans_le (Superblock.bmapstart_le_bblock b)

theorem one_lt_iblock (i : Nat) : 1 < fs.sb.iblock i :=
  owned.layout.first.trans_le (Superblock.inodestart_le_iblock i)

theorem one_lt_bblock (b : Nat) : 1 < fs.sb.bblock b :=
  owned.layout.first.trans_le (owned.layout.order.trans (Superblock.bmapstart_le_bblock b))

theorem one_lt_data {b : Nat} (data : fs.sb.datastart ≤ b) (inside : b < fs.sb.size) : 1 < b :=
  (owned.one_lt_bblock b).trans (owned.bblock_lt inside data)

theorem ne_zero_of_data {b : Nat} (data : fs.sb.datastart ≤ b) (inside : b < fs.sb.size) : b ≠ 0 :=
  Nat.ne_zero_of_lt (owned.one_lt_data data inside)

/-- Writes that keep the cache, the superblock and the marked bits keep the
invariant if they leave the addresses in order. -/
theorem transfer {after : Fs} (sb : after.sb = fs.sb) (icache : after.icache = fs.icache)
    (superblock : after.disk 1 = fs.disk 1)
    (copies : ∀ ip, fs.Live ip → (fs.icache ip).copy.Extends (after.dinode (fs.icache ip).inum))
    (bounded : ∀ i < fs.sb.ninodes, (after.cur i).type ≠ 0 → (after.cur i).size ≤ MAXFILE * BSIZE)
    (bits : ∀ c < fs.sb.size, fs.used c = true → after.used c = true)
    (area : ∀ i pos, after.addr i pos ≠ 0 → fs.sb.datastart ≤ after.addr i pos ∧
      after.addr i pos < fs.sb.size ∧ fs.used (after.addr i pos) = true)
    (once : ∀ i j pos other, after.addr i pos ≠ 0 → after.addr i pos = after.addr j other →
      i = j ∧ pos = other) : after.Owned := by
  have live : ∀ ip, after.Live ip ↔ fs.Live ip := by
    intro ip
    unfold Live
    rw [icache]
  refine ⟨sb ▸ owned.layout, by rw [superblock, sb, owned.superblock], ?_, ?_, ?_, ?_, sb ▸ bounded,
    ?_, ?_, once⟩
  · intro ip
    rw [icache, sb]
    exact owned.inums ip
  · unfold Unique
    rw [icache]
    exact owned.unique
  · intro ip isLive
    rw [icache]
    exact owned.range ip ((live ip).mp isLive)
  · intro ip isLive
    rw [icache]
    exact copies ip ((live ip).mp isLive)
  · intro b reserved
    rw [sb] at reserved
    exact bits b (reserved.trans_le (Nat.sub_le _ _)) (owned.reserved b reserved)
  · intro i pos mapped
    obtain ⟨lower, upper, marked⟩ := area i pos mapped
    rw [sb]
    exact ⟨lower, upper, bits _ upper marked⟩

theorem transfer_same {after : Fs} (sb : after.sb = fs.sb) (icache : after.icache = fs.icache)
    (superblock : after.disk 1 = fs.disk 1)
    (dinode : ∀ i < fs.sb.ninodes, after.dinode i = fs.dinode i)
    (bits : ∀ c < fs.sb.size, fs.used c = true → after.used c = true)
    (addrs : ∀ i pos, after.addr i pos = fs.addr i pos) : after.Owned := by
  apply owned.transfer sb icache superblock _ _ bits
  · intro i pos
    rw [addrs]
    exact owned.area i pos
  · intro i j pos other
    rw [addrs, addrs]
    exact owned.once i j pos other
  · intro ip live
    rw [dinode _ (owned.inums ip live.ref_pos)]
    exact owned.copies ip live
  · intro i inode
    rw [cur_same icache (dinode i inode)]
    exact owned.bounded i inode

/-- What a write leaves alone: all inodes, all marked bits and all addresses. -/
structure Keeps (fs after : Fs) : Prop where
  owned : after.Owned
  sb : after.sb = fs.sb
  icache : after.icache = fs.icache
  dinode : ∀ i < fs.sb.ninodes, after.dinode i = fs.dinode i
  addr : ∀ i pos, after.addr i pos = fs.addr i pos

theorem write_data {b : Nat} (data : fs.sb.datastart ≤ b) (inside : b < fs.sb.size)
    (plain : ∀ i, fs.addr i NDIRECT ≠ b) (block : Block) :
    Keeps fs (fs.write b block) ∧
      ∀ c < fs.sb.size, (fs.write b block).used c = fs.used c := by
  have dinodes : ∀ i < fs.sb.ninodes, (fs.write b block).dinode i = fs.dinode i := by
    intro i inode
    exact Superblock.dinode_update_ne (owned.iblock_lt inode data inside).ne
  have bits : ∀ c < fs.sb.size, (fs.write b block).used c = fs.used c := by
    intro c bound
    exact Superblock.used_update_ne (owned.bblock_lt bound data).ne
  have addrs : ∀ i pos, (fs.write b block).addr i pos = fs.addr i pos := by
    intro i pos
    by_cases inode : i < fs.sb.ninodes
    · have indirect : (fs.write b block).disk (fs.addr i NDIRECT) = fs.disk (fs.addr i NDIRECT) :=
        update_of_ne (plain i) _ _
      exact addr_congr (by rfl) (cur_write (dinodes i inode)) (fun _ => indirect) pos
    · unfold addr
      rw [if_neg (fun all => inode all.1), if_neg (fun all => inode all.1)]
  refine ⟨⟨owned.transfer_same rfl rfl ?_ dinodes ?_ addrs, rfl, rfl, dinodes, addrs⟩, bits⟩
  · exact update_of_ne (owned.one_lt_data data inside).ne _ _
  · intro c bound marked
    rw [bits c bound]
    exact marked

theorem write_bitmap {b : Nat} (inside : b < fs.sb.size) {block : Block}
    (bits : ∀ c < fs.sb.size, fs.used c = true → (fs.write (fs.sb.bblock b) block).used c = true) :
    Keeps fs (fs.write (fs.sb.bblock b) block) := by
  have dinodes : ∀ i < fs.sb.ninodes,
      (fs.write (fs.sb.bblock b) block).dinode i = fs.dinode i := by
    intro i inode
    exact Superblock.dinode_update_ne (owned.iblock_lt_bblock inode b).ne
  have addrs : ∀ i pos, (fs.write (fs.sb.bblock b) block).addr i pos = fs.addr i pos := by
    intro i pos
    by_cases inode : i < fs.sb.ninodes
    · refine addr_congr (by rfl) (cur_write (dinodes i inode)) ?_ pos
      intro mapped
      exact update_of_ne
        (owned.bblock_lt inside (owned.area i NDIRECT mapped).1).ne' _ _
    · unfold addr
      rw [if_neg (fun all => inode all.1), if_neg (fun all => inode all.1)]
  exact ⟨owned.transfer_same rfl rfl (update_of_ne (owned.one_lt_bblock b).ne _ _) dinodes
    bits addrs, rfl, rfl, dinodes, addrs⟩

theorem withLog {logged : List Nat} : ({ fs with logged := logged } : Fs).Owned :=
  ⟨owned.layout, owned.superblock, owned.inums, owned.unique, owned.range, owned.copies,
    owned.bounded, owned.reserved, owned.area, owned.once⟩

theorem unreferenced {b : Nat} (free : fs.used b = false) :
    fs.sb.datastart ≤ b ∧ ∀ i pos, fs.addr i pos ≠ 0 → fs.addr i pos ≠ b := by
  refine ⟨?_, ?_⟩
  · by_contra reserved
    have marked := owned.reserved b (by omega)
    simp [free] at marked
  · rintro i pos mapped rfl
    have marked := (owned.area i pos mapped).2.2
    simp [free] at marked

end Owned

def allocate (fs : Fs) (b : Nat) : Fs :=
  (fs.write (fs.sb.bblock b) (Bytes.setBit (fs.disk (fs.sb.bblock b)) (b % BPB))).write b fun _ => 0

theorem Owned.allocate (owned : fs.Owned) {b : Nat} (inside : b < fs.sb.size)
    (free : fs.used b = false) :
    Owned.Keeps fs (fs.allocate b) ∧
      ∀ c < fs.sb.size, (fs.allocate b).used c = if c = b then true else fs.used c := by
  let marked := fs.write (fs.sb.bblock b) (Bytes.setBit (fs.disk (fs.sb.bblock b)) (b % BPB))
  have bits : ∀ c, marked.used c = if c = b then true else fs.used c :=
    Superblock.used_setBit fs.disk b
  have first : Owned.Keeps fs marked := by
    apply owned.write_bitmap inside
    intro c _ old
    rw [bits, old]
    split <;> rfl
  obtain ⟨data, fresh⟩ := owned.unreferenced free
  obtain ⟨second, same⟩ := first.owned.write_data (b := b) data inside (by
    intro i same
    rw [first.addr] at same
    exact fresh i NDIRECT (same ▸ owned.ne_zero_of_data data inside) same) fun _ => 0
  refine ⟨⟨second.owned, rfl, rfl, ?_, ?_⟩, ?_⟩
  · intro i inode
    rw [← first.dinode i inode]
    exact second.dinode i inode
  · intro i pos
    rw [← first.addr i pos]
    exact second.addr i pos
  · intro c bound
    rw [← bits c]
    exact same c bound

theorem disk_allocate {b c : Nat} (other : c ≠ b) (block : c ≠ fs.sb.bblock b) :
    (fs.allocate b).disk c = fs.disk c := by
  change update (update _ _ _) b _ c = _
  rw [update_of_ne other, update_of_ne block]

theorem disk_allocate_self (b : Nat) : (fs.allocate b).disk b = fun _ => 0 :=
  update_self _ _ _

end Fs

/-! ## The block allocator -/

open Exec

section Rules

variable {fs : Fs} {bad : Stop → Prop}

@[simp]
theorem ensures_bread {b : Nat} {good : Block → Fs → Prop} :
    (bread b).Ensures fs good bad ↔ good (fs.disk b) fs := Iff.rfl

@[simp]
theorem ensures_logWrite {b : Nat} {data : Block} {good : Unit → Fs → Prop} :
    (logWrite b data).Ensures fs good bad ↔ good () (fs.write b data) := Iff.rfl

@[simp]
theorem ensures_getSb {good : Superblock → Fs → Prop} :
    getSb.Ensures fs good bad ↔ good fs.sb fs := Iff.rfl

@[simp]
theorem ensures_getInode {ip : Slot} {good : Inode → Fs → Prop} :
    (getInode ip).Ensures fs good bad ↔ good (fs.icache ip) fs := Iff.rfl

@[simp]
theorem ensures_setInode {ip : Slot} {inode : Inode} {good : Unit → Fs → Prop} :
    (setInode ip inode).Ensures fs good bad ↔ good () (fs.setSlot ip inode) := Iff.rfl

@[simp]
theorem ensures_panic {α : Type} {message : Panic} {good : α → Fs → Prop} :
    (panic message : FsM α).Ensures fs good bad ↔ bad (.panic message) := Iff.rfl

end Rules

theorem freeBit_some {bp : Block} {b size bi : Nat} (found : freeBit bp b size = some bi) :
    bi < BPB ∧ b + bi < size ∧ Bytes.getBit bp bi = false := by
  unfold freeBit at found
  have holds := List.find?_some found
  have member := List.mem_of_find?_eq_some found
  simp only [Bool.and_eq_true, decide_eq_true_eq, Bool.not_eq_true'] at holds
  exact ⟨List.mem_range.mp member, holds.1, holds.2⟩

theorem freeBit_none {bp : Block} {b size bi : Nat} (full : freeBit bp b size = none)
    (bit : bi < BPB) (inside : b + bi < size) : Bytes.getBit bp bi = true := by
  unfold freeBit at full
  have fails := List.find?_eq_none.mp full bi (List.mem_range.mpr bit)
  simpa [inside] using fails

theorem ballocLoop_ensures {fs : Fs} {starts : List Nat} (aligned : ∀ b ∈ starts, b % BPB = 0) :
    (ballocLoop starts).Ensures fs
      (fun b after => b < fs.sb.size ∧ fs.used b = false ∧ after = fs.allocate b)
      (fun stop => stop = .panic .outOfBlocks ∧
        ∀ b ∈ starts, ∀ bi < BPB, b + bi < fs.sb.size → fs.used (b + bi) = true) := by
  induction starts with
  | nil => simp [ballocLoop]
  | cons b rest ih =>
    have start : b % BPB = 0 := aligned b (by simp)
    have block : ∀ bi < BPB, fs.sb.bblock (b + bi) = fs.sb.bblock b ∧ (b + bi) % BPB = bi := by
      intro bi bit
      simp only [Superblock.bblock, BPB, BSIZE] at start bit ⊢
      omega
    unfold ballocLoop
    simp only [ensures_bind, ensures_getSb, ensures_bread]
    split
    next bi found =>
      obtain ⟨bit, inside, clear⟩ := freeBit_some found
      simp only [ensures_bind, ensures_logWrite, bzero, ensures_pure]
      refine ⟨inside, ?_, ?_⟩
      · rw [Fs.used, Superblock.used, (block bi bit).1, (block bi bit).2, clear]
      · rw [Fs.allocate, (block bi bit).1, (block bi bit).2]
    next full =>
      refine (ih fun other member => aligned other (by simp [member])).mono
        (fun _ _ found => found) ?_
      rintro stop ⟨rfl, marked⟩
      refine ⟨rfl, ?_⟩
      intro other member bi bit inside
      rcases List.mem_cons.mp member with rfl | later
      · rw [Fs.used, Superblock.used, (block bi bit).1, (block bi bit).2]
        exact freeBit_none full bit inside
      · exact marked other later bi bit inside

/-- `balloc` takes a clear bit, and panics only when there is none. -/
theorem balloc_ensures (fs : Fs) :
    balloc.Ensures fs
      (fun b after => b < fs.sb.size ∧ fs.used b = false ∧ after = fs.allocate b)
      (fun stop => stop = .panic .outOfBlocks ∧ ∀ b < fs.sb.size, fs.used b = true) := by
  unfold balloc
  simp only [ensures_bind, ensures_getSb]
  refine (ballocLoop_ensures ?_).mono (fun _ _ found => found) ?_
  · simp
  · rintro stop ⟨rfl, marked⟩
    refine ⟨rfl, ?_⟩
    intro b inside
    have split : b / BPB * BPB + b % BPB = b := Nat.div_add_mod' b BPB
    have bit : b % BPB < BPB := Nat.mod_lt _ (by decide)
    have result := marked (b / BPB * BPB) ?_ (b % BPB) bit (by rw [split]; exact inside)
    · rwa [split] at result
    · refine List.mem_map.mpr ⟨b / BPB, List.mem_range.mpr ?_, rfl⟩
      simp only [BPB, BSIZE] at inside ⊢
      omega

end Xv6
