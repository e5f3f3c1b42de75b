import Xv6.Fs.Content

/-!
# Truncating and freeing inodes

`itrunc` gives all blocks of an inode back and `iput` frees the inode with its
last reference.  While `itrunc` runs, blocks are marked free that the inode on
disk still refers to, so its loops are described by the bits they clear
(`Released`) and the invariant comes back with the final `iupdate`.
-/

namespace Xv6

open Exec Fs

namespace Fs

variable {fs mid after : Fs}

def free (fs : Fs) (b : Nat) : Fs :=
  fs.write (fs.sb.bblock b) (Bytes.clearBit (fs.disk (fs.sb.bblock b)) (b % BPB))

/-- The bits of the blocks in `gone` have been cleared, and only the bit map has
changed. -/
structure Released (fs after : Fs) (gone : Nat → Prop) : Prop where
  sb : after.sb = fs.sb
  logged : ∀ c ∈ after.logged, c ∈ fs.logged ∨ ∃ b < fs.sb.size, c = fs.sb.bblock b
  disk : ∀ c, (∀ b < fs.sb.size, c ≠ fs.sb.bblock b) → after.disk c = fs.disk c
  used : ∀ c < fs.sb.size, after.used c = true ↔ fs.used c = true ∧ ¬gone c

theorem Released.refl (fs : Fs) : Released fs fs fun _ => False :=
  ⟨rfl, fun _ => .inl, fun _ _ => rfl, fun _ _ => by simp⟩

theorem Released.trans {gone more : Nat → Prop} (first : Released fs mid gone)
    (second : Released mid after more) : Released fs after fun b => gone b ∨ more b := by
  refine ⟨second.sb.trans first.sb, ?_, ?_, ?_⟩
  · intro c member
    have bits := second.logged c member
    rw [first.sb] at bits
    exact bits.elim (first.logged c) .inr
  · intro c apart
    rw [second.disk c (first.sb ▸ apart), first.disk c apart]
  · intro c inside
    rw [second.used c (first.sb ▸ inside), first.used c inside, not_or, and_assoc]

theorem Released.congr {gone same : Nat → Prop} (released : Released fs after gone)
    (iff : ∀ b, gone b ↔ same b) : Released fs after same := by
  have equal : gone = same := funext fun b => propext (iff b)
  exact equal ▸ released

theorem Released.free {b : Nat} (inside : b < fs.sb.size) : Released fs (fs.free b) (· = b) := by
  refine ⟨rfl, ?_, ?_, ?_⟩
  · intro c member
    exact (List.mem_cons.mp member).elim (fun same => .inr ⟨b, inside, same⟩) .inl
  · intro c apart
    exact Function.update_of_ne (apart b inside) _ _
  · intro c _
    have bit : (fs.free b).used c = if c = b then false else fs.used c :=
      Superblock.used_clearBit fs.disk b c
    rw [bit]
    by_cases same : c = b
    · simp [same]
    · simp [same]

/-- The superblock is in place, so `readsb` finds it. -/
structure Mounted (fs : Fs) : Prop where
  layout : fs.sb.Ok
  superblock : Superblock.decode (fs.disk 1) = fs.sb

theorem Owned.mounted (owned : fs.Owned) : fs.Mounted := ⟨owned.layout, owned.superblock⟩

theorem Mounted.ne_bblock (mounted : fs.Mounted) (b : Nat) : 1 ≠ fs.sb.bblock b :=
  (mounted.layout.first.trans_le (mounted.layout.order.trans
    (Superblock.bmapstart_le_bblock b))).ne

theorem Released.mounted {gone : Nat → Prop} (released : Released fs after gone)
    (mounted : fs.Mounted) : after.Mounted := by
  refine ⟨released.sb ▸ mounted.layout, ?_⟩
  rw [released.disk 1 (fun b _ => mounted.ne_bblock b), released.sb, mounted.superblock]

end Fs

theorem bfree_ensures {fs : Fs} (mounted : fs.Mounted) (b : Nat) :
    (bfree b).Ensures fs (fun _ after => after = fs.free b)
      (fun stop => stop = .panic .freeingFreeBlock ∧ fs.used b = false) := by
  unfold bfree readsb
  simp only [ensures_bind, ensures_bread, ensures_modify, ensures_getSb, mounted.superblock]
  split
  · exact rfl
  next clear =>
    exact ⟨rfl, Bool.eq_false_iff.mpr clear⟩

/-- The blocks at places that can all be freed: they lie on the disk, are in use
and are all different. -/
structure Freeable (fs : Fs) (places : List Nat) (block : Nat → Nat) : Prop where
  nodup : places.Nodup
  inside : ∀ k ∈ places, block k ≠ 0 → block k < fs.sb.size ∧ fs.used (block k) = true
  distinct : ∀ j ∈ places, ∀ k ∈ places, block j ≠ 0 → block j = block k → j = k

def BlocksAt (places : List Nat) (block : Nat → Nat) (b : Nat) : Prop :=
  b ≠ 0 ∧ ∃ k ∈ places, block k = b

section Freeable

variable {fs mid : Fs} {k : Nat} {rest : List Nat} {block : Nat → Nat}

theorem Freeable.tail (freeable : Freeable fs (k :: rest) block) : Freeable fs rest block where
  nodup := (List.nodup_cons.mp freeable.nodup).2
  inside j member := freeable.inside j (List.mem_cons_of_mem k member)
  distinct i first j second :=
    freeable.distinct i (List.mem_cons_of_mem k first) j (List.mem_cons_of_mem k second)

theorem Freeable.after (freeable : Freeable fs (k :: rest) block)
    (released : Released fs mid (· = block k)) : Freeable mid rest block := by
  refine ⟨freeable.tail.nodup, ?_, freeable.tail.distinct⟩
  intro j member mapped
  obtain ⟨inside, marked⟩ := freeable.tail.inside j member mapped
  refine ⟨released.sb ▸ inside, (released.used _ inside).mpr ⟨marked, ?_⟩⟩
  intro same
  have again := freeable.distinct j (List.mem_cons_of_mem k member) k List.mem_cons_self mapped same
  exact (List.nodup_cons.mp freeable.nodup).1 (again ▸ member)

theorem Freeable.congr {places : List Nat} {other : Nat → Nat} (freeable : Freeable fs places block)
    (same : ∀ k ∈ places, other k = block k) : Freeable fs places other := by
  refine ⟨freeable.nodup, ?_, ?_⟩
  · intro j member
    rw [same j member]
    exact freeable.inside j member
  · intro i first j second
    rw [same i first, same j second]
    exact freeable.distinct i first j second

theorem blocksAt_congr {places : List Nat} {other : Nat → Nat}
    (same : ∀ k ∈ places, other k = block k) (b : Nat) :
    BlocksAt places other b ↔ BlocksAt places block b := by
  unfold BlocksAt
  refine and_congr_right fun _ => exists_congr fun k => and_congr_right fun member => ?_
  rw [same k member]

theorem blocksAt_cons_zero (absent : block k = 0) (b : Nat) :
    BlocksAt (k :: rest) block b ↔ BlocksAt rest block b := by
  constructor
  · rintro ⟨positive, j, member, rfl⟩
    rcases List.mem_cons.mp member with rfl | later
    · exact absurd absent positive
    · exact ⟨positive, j, later, rfl⟩
  · rintro ⟨positive, j, member, rfl⟩
    exact ⟨positive, j, List.mem_cons_of_mem k member, rfl⟩

theorem blocksAt_cons (present : block k ≠ 0) (b : Nat) :
    BlocksAt (k :: rest) block b ↔ b = block k ∨ BlocksAt rest block b := by
  constructor
  · rintro ⟨positive, j, member, rfl⟩
    rcases List.mem_cons.mp member with rfl | later
    · exact .inl rfl
    · exact .inr ⟨positive, j, later, rfl⟩
  · rintro (rfl | ⟨positive, j, member, rfl⟩)
    · exact ⟨present, k, List.mem_cons_self, rfl⟩
    · exact ⟨positive, j, List.mem_cons_of_mem k member, rfl⟩

end Freeable

theorem itruncEntries_ensures {fs : Fs} (mounted : fs.Mounted) {bp : Block} {places : List Nat}
    (freeable : Freeable fs places bp.word) :
    (itruncEntries bp places).Ensures fs
      (fun _ after => Released fs after (BlocksAt places bp.word) ∧ after.icache = fs.icache)
      (fun _ => False) := by
  induction places generalizing fs with
  | nil =>
    refine ⟨(Released.refl fs).congr fun b => ?_, rfl⟩
    simp [BlocksAt]
  | cons k rest ih =>
    unfold itruncEntries
    split
    next absent =>
      refine (ih mounted freeable.tail).mono ?_ (fun _ => id)
      rintro _ after ⟨released, same⟩
      exact ⟨released.congr fun b => (blocksAt_cons_zero absent b).symm, same⟩
    next present =>
      obtain ⟨inside, marked⟩ := freeable.inside k List.mem_cons_self present
      refine (bfree_ensures mounted _).bind ?_ ?_
      · rintro _ _ rfl
        have first := Released.free inside
        refine (ih (first.mounted mounted) (freeable.after first)).mono
          ?_ (fun _ => id)
        rintro _ after ⟨released, same⟩
        exact ⟨(first.trans released).congr fun b => (blocksAt_cons present b).symm, same⟩
      · rintro stop ⟨-, clear⟩
        simp [clear] at marked

/-- The inode with the addresses at some places set to zero. -/
def Dinode.clear (d : Dinode) (places : List Nat) : Dinode :=
  { d with addrs := fun k => if k.val ∈ places then 0 else d.addrs k }

theorem Dinode.addr_clear (d : Dinode) (places : List Nat) (k : Nat) :
    (d.clear places).addr k = if k ∈ places then 0 else d.addr k := by
  unfold Dinode.addr Dinode.clear
  split
  · rfl
  · simp

theorem Dinode.clear_nil (d : Dinode) : d.clear [] = d := by
  simp [Dinode.clear]

theorem Dinode.clear_cons_zero {d : Dinode} {k : Nat} (absent : d.addr k = 0) (rest : List Nat) :
    d.clear (k :: rest) = d.clear rest := by
  unfold Dinode.clear
  congr 1
  funext i
  by_cases same : i.val = k
  · subst same
    rw [← Dinode.addrs_eq_addr] at absent
    simp [absent]
  · simp [same]

theorem Dinode.clear_setAddr (d : Dinode) (k : Nat) (rest : List Nat) :
    (d.setAddr k 0).clear rest = d.clear (k :: rest) := by
  unfold Dinode.clear Dinode.setAddr
  congr 1
  funext i
  by_cases same : i.val = k
  · simp [same]
  · simp [same]

theorem Fs.setCopy_setCopy {fs mid : Fs} {ip : Slot} {d e : Dinode}
    (first : mid.icache = (fs.setCopy ip d).icache) :
    (mid.setCopy ip e).icache = (fs.setCopy ip e).icache := by
  funext jp
  by_cases same : jp = ip
  · subst same
    rw [setCopy_icache_self, setCopy_icache_self, first, setCopy_icache_self]
  · rw [setCopy_icache_ne e same, setCopy_icache_ne e same, first, setCopy_icache_ne d same]

theorem itruncDirect_ensures {fs : Fs} (mounted : fs.Mounted) {ip : Slot} {places : List Nat}
    (freeable : Freeable fs places (fs.icache ip).copy.addr) :
    (itruncDirect ip places).Ensures fs
      (fun _ after => Released fs after (BlocksAt places (fs.icache ip).copy.addr) ∧
        after.icache = (fs.setCopy ip ((fs.icache ip).copy.clear places)).icache)
      (fun _ => False) := by
  induction places generalizing fs with
  | nil =>
    refine ⟨(Released.refl fs).congr fun b => ?_, ?_⟩
    · simp [BlocksAt]
    · rw [Dinode.clear_nil]
      exact (Function.update_eq_self ip fs.icache).symm
  | cons k rest ih =>
    unfold itruncDirect
    simp only [ensures_bind, ensures_getInode]
    split
    next absent =>
      refine (ih mounted freeable.tail).mono ?_ (fun _ => id)
      rintro _ after ⟨released, same⟩
      refine ⟨released.congr fun b => (blocksAt_cons_zero absent b).symm, ?_⟩
      rw [same, Dinode.clear_cons_zero absent]
    next present =>
      obtain ⟨inside, marked⟩ := freeable.inside k List.mem_cons_self present
      refine (bfree_ensures mounted _).bind ?_ ?_
      · rintro _ _ rfl
        simp only [ensures_bind, ensures_setInode]
        -- the freed block is forgotten before the loop goes on
        let next := (fs.free ((fs.icache ip).copy.addr k)).setCopy ip
          ((fs.icache ip).copy.setAddr k 0)
        change (itruncDirect ip rest).Ensures next _ _
        have first : Released fs next (· = (fs.icache ip).copy.addr k) :=
          ⟨rfl, (Released.free inside).logged, (Released.free inside).disk,
            (Released.free inside).used⟩
        have copied : (next.icache ip).copy = (fs.icache ip).copy.setAddr k 0 := by
          have stored : next.icache ip = { fs.icache ip with
            copy := (fs.icache ip).copy.setAddr k 0 } := setCopy_icache_self ip _
          rw [stored]
        have others : ∀ j ∈ rest, (next.icache ip).copy.addr j = (fs.icache ip).copy.addr j := by
          intro j member
          rw [copied, Dinode.addr_setAddr_ne]
          rintro rfl
          exact (List.nodup_cons.mp freeable.nodup).1 member
        refine (ih (first.mounted mounted)
          ((freeable.after first).congr others)).mono ?_ (fun _ => id)
        rintro _ after ⟨released, same⟩
        refine ⟨(first.trans released).congr fun b => ?_, ?_⟩
        · rw [blocksAt_cons present, blocksAt_congr others]
        · rw [same, copied, Dinode.clear_setAddr]
          exact setCopy_setCopy (by rfl)
      · rintro stop ⟨-, clear⟩
        simp [clear] at marked

theorem Dinode.setAddr_zero {d : Dinode} {k : Nat} (absent : d.addr k = 0) : d.setAddr k 0 = d := by
  have cleared := Dinode.clear_setAddr d k []
  rwa [Dinode.clear_nil, Dinode.clear_cons_zero absent, Dinode.clear_nil] at cleared

/-- The indirect block and the blocks it lists. -/
def IndirectBlocks (fs : Fs) (pointer b : Nat) : Prop :=
  pointer ≠ 0 ∧ (BlocksAt (List.range NINDIRECT) (fs.disk pointer).word b ∨ b = pointer)

theorem itruncIndirect_ensures {fs : Fs} (mounted : fs.Mounted) {ip : Slot}
    (freeable : (fs.icache ip).copy.addr NDIRECT ≠ 0 →
      Freeable fs (List.range NINDIRECT) (fs.disk ((fs.icache ip).copy.addr NDIRECT)).word)
    (own : (fs.icache ip).copy.addr NDIRECT ≠ 0 →
      (fs.icache ip).copy.addr NDIRECT < fs.sb.size ∧
        fs.used ((fs.icache ip).copy.addr NDIRECT) = true ∧
        ∀ e < NINDIRECT, (fs.disk ((fs.icache ip).copy.addr NDIRECT)).word e ≠
          (fs.icache ip).copy.addr NDIRECT) :
    (itruncIndirect ip).Ensures fs
      (fun _ after => Released fs after (IndirectBlocks fs ((fs.icache ip).copy.addr NDIRECT)) ∧
        after.icache = (fs.setCopy ip ((fs.icache ip).copy.setAddr NDIRECT 0)).icache)
      (fun _ => False) := by
  unfold itruncIndirect
  simp only [ensures_bind, ensures_getInode]
  split
  next absent =>
    refine ⟨(Released.refl fs).congr fun b => ?_, ?_⟩
    · simp [IndirectBlocks, absent]
    · rw [Dinode.setAddr_zero absent]
      exact (Function.update_eq_self ip fs.icache).symm
  next present =>
    obtain ⟨inside, marked, apart⟩ := own present
    simp only [ensures_bind, ensures_bread]
    refine (itruncEntries_ensures mounted (freeable present)).mono ?_ (fun _ => id)
    rintro _ mid ⟨entries, same⟩
    have still : mid.used ((fs.icache ip).copy.addr NDIRECT) = true := by
      refine (entries.used _ inside).mpr ⟨marked, ?_⟩
      rintro ⟨-, e, entry, listed⟩
      exact apart e (List.mem_range.mp entry) listed
    refine (bfree_ensures (entries.mounted mounted) _).mono ?_ ?_
    · rintro _ _ rfl
      have last := Released.free (entries.sb ▸ inside)
      refine ⟨⟨(entries.trans last).sb, (entries.trans last).logged, (entries.trans last).disk, ?_⟩,
        ?_⟩
      · intro c small
        refine ((entries.trans last).used c small).trans (and_congr_right fun _ => ?_)
        simp only [IndirectBlocks, ne_eq, present, not_false_iff, true_and]
      · change Function.update mid.icache ip _ = Function.update fs.icache ip _
        rw [same]
    · rintro stop ⟨-, clear⟩
      simp [clear] at still

def Dinode.truncated (d : Dinode) : Dinode := { d with size := 0, addrs := fun _ => 0 }

/-- What `itrunc` does: the inode is empty and its blocks are free. -/
structure Truncated (fs after : Fs) (ip : Slot) : Prop where
  change : Change fs after (fs.icache ip).inum
  icache : after.icache = (fs.setCopy ip (fs.icache ip).copy.truncated).icache
  logged : ∀ c ∈ after.logged, c ∈ fs.logged ∨ (∃ b < fs.sb.size, c = fs.sb.bblock b) ∨
    c = fs.sb.iblock (fs.icache ip).inum
  dinode : after.dinode (fs.icache ip).inum = (fs.icache ip).copy.truncated
  used : ∀ c < fs.sb.size, after.used c = true ↔
    fs.used c = true ∧ ¬(c ≠ 0 ∧ ∃ pos, fs.addr (fs.icache ip).inum pos = c)

theorem Dinode.clear_all (d : Dinode) :
    (d.clear (List.range NDIRECT)).setAddr NDIRECT 0 = { d with addrs := fun _ => 0 } := by
  unfold Dinode.clear Dinode.setAddr
  congr 1
  funext k
  by_cases last : k.val = NDIRECT
  · simp [last]
  · have direct : k.val < NDIRECT := by
      have bound := k.isLt
      omega
    simp [direct]

section Truncate

variable {fs : Fs} {ip : Slot} (owned : fs.Owned) (live : fs.Live ip)

include owned live

theorem freeable_direct :
    Freeable fs (List.range NDIRECT) (fs.icache ip).copy.addr := by
  have held : ∀ k ∈ List.range NDIRECT,
      fs.addr (fs.icache ip).inum k = (fs.icache ip).copy.addr k :=
    fun k member => owned.addr_direct live (List.mem_range.mp member).le
  refine ⟨List.nodup_range, ?_, ?_⟩
  · intro k member
    rw [← held k member]
    intro mapped
    exact (owned.area _ k mapped).2
  · intro j first k second
    rw [← held j first, ← held k second]
    intro mapped same
    exact (owned.once _ _ _ _ mapped same).2

theorem freeable_entries (indirect : (fs.icache ip).copy.addr NDIRECT ≠ 0) {mid : Fs}
    (direct : Released fs mid (BlocksAt (List.range NDIRECT) (fs.icache ip).copy.addr)) :
    Freeable mid (List.range NINDIRECT) (fs.disk ((fs.icache ip).copy.addr NDIRECT)).word := by
  have held : ∀ e ∈ List.range NINDIRECT, fs.addr (fs.icache ip).inum (NDIRECT + 1 + e) =
      (fs.disk ((fs.icache ip).copy.addr NDIRECT)).word e :=
    fun e member => owned.addr_entry live indirect (List.mem_range.mp member)
  refine ⟨List.nodup_range, ?_, ?_⟩
  · intro e member
    rw [← held e member]
    intro mapped
    obtain ⟨-, inside, marked⟩ := owned.area _ _ mapped
    refine ⟨direct.sb ▸ inside, (direct.used _ inside).mpr ⟨marked, ?_⟩⟩
    rintro ⟨-, k, small, clash⟩
    rw [← owned.addr_direct live (List.mem_range.mp small).le] at clash
    have same := (owned.once _ _ _ _ mapped clash.symm).2
    have bound := List.mem_range.mp small
    omega
  · intro e first f second
    rw [← held e first, ← held f second]
    intro mapped same
    have positions := (owned.once _ _ _ _ mapped same).2
    omega

theorem blocks_iff (b : Nat) :
    BlocksAt (List.range NDIRECT) (fs.icache ip).copy.addr b ∨
      IndirectBlocks fs ((fs.icache ip).copy.addr NDIRECT) b ↔
      b ≠ 0 ∧ ∃ pos, fs.addr (fs.icache ip).inum pos = b := by
  constructor
  · rintro (⟨positive, k, member, rfl⟩ | ⟨pointer, ⟨positive, e, member, rfl⟩ | rfl⟩)
    · exact ⟨positive, k, owned.addr_direct live (List.mem_range.mp member).le⟩
    · exact ⟨positive, _, owned.addr_entry live pointer (List.mem_range.mp member)⟩
    · exact ⟨pointer, _, owned.addr_direct live le_rfl⟩
  · rintro ⟨positive, pos, rfl⟩
    by_cases direct : pos < NDIRECT
    · rw [owned.addr_direct live direct.le] at positive ⊢
      exact .inl ⟨positive, pos, List.mem_range.mpr direct, rfl⟩
    by_cases last : pos = NDIRECT
    · subst last
      rw [owned.addr_direct live le_rfl] at positive ⊢
      exact .inr ⟨positive, .inr rfl⟩
    · have held := owned.addr_of_live live pos
      rw [held] at positive ⊢
      split at positive
      next bound =>
        rw [if_pos bound]
        unfold Dinode.addrAt at positive ⊢
        rw [if_neg (by omega)] at positive ⊢
        split at positive
        · exact absurd rfl positive
        next pointer =>
          rw [if_neg pointer]
          refine .inr ⟨pointer, .inl ⟨positive, pos - (NDIRECT + 1), List.mem_range.mpr ?_, rfl⟩⟩
          simp only [NADDR] at bound
          omega
      · exact absurd rfl positive

/-- Once the blocks have been released and the copy is empty, writing the inode
back restores the invariant. -/
theorem truncated_of_released {mid : Fs} {d : Dinode}
    (released : Released fs mid fun b => b ≠ 0 ∧ ∃ pos, fs.addr (fs.icache ip).inum pos = b)
    (icache : mid.icache = (fs.setCopy ip d).icache) :
    Truncated fs (mid.store ip (fs.icache ip).copy.truncated) ip := by
  let after := mid.store ip (fs.icache ip).copy.truncated
  have sameSb : after.sb = fs.sb := released.sb
  have inode := owned.inums ip live.ref_pos
  have range : (fs.icache ip).copy.truncated.InRange := by
    have old := owned.range ip live
    exact ⟨old.type, old.major, old.minor, old.nlink, Nat.two_pow_pos 32,
      fun _ => Nat.two_pow_pos 32⟩
  have inum : (mid.icache ip).inum = (fs.icache ip).inum := by rw [icache, setCopy_inum]
  have entries : after.icache = (fs.setCopy ip (fs.icache ip).copy.truncated).icache :=
    setCopy_setCopy icache
  have disk : ∀ c, c ≠ fs.sb.iblock (fs.icache ip).inum →
      (∀ b < fs.sb.size, c ≠ fs.sb.bblock b) → after.disk c = fs.disk c := by
    intro c block apart
    rw [← released.disk c apart]
    refine Function.update_of_ne ?_ _ _
    rw [inum, released.sb]
    exact block
  have dinodes : ∀ j < fs.sb.ninodes, after.dinode j =
      if j = (fs.icache ip).inum then (fs.icache ip).copy.truncated else fs.dinode j := by
    intro j small
    have stored : after.dinode j = if j = (mid.icache ip).inum then (fs.icache ip).copy.truncated
      else mid.dinode j := dinode_store range j
    rw [stored, inum]
    split
    · rfl
    · unfold Fs.dinode Superblock.dinode
      rw [released.sb, released.disk _ fun b _ => (owned.iblock_lt_bblock small b).ne]
  have bits : ∀ c < fs.sb.size, after.used c = true ↔
      fs.used c = true ∧ ¬(c ≠ 0 ∧ ∃ pos, fs.addr (fs.icache ip).inum pos = c) := by
    intro c inside
    rw [← released.used c inside]
    have same : after.used c = mid.used c := by
      refine Superblock.used_update_ne ?_
      rw [inum, released.sb, sameSb]
      exact (owned.iblock_lt_bblock inode c).ne'
    rw [same]
  have data : ∀ c, fs.sb.datastart ≤ c → c < fs.sb.size → after.disk c = fs.disk c := by
    intro c lower upper
    exact disk c (owned.iblock_lt inode lower upper).ne'
      fun b inside => (owned.bblock_lt inside lower).ne'
  have concerns : Concerns fs after (fs.icache ip).inum := by
    intro jp
    by_cases same : jp = ip
    · subst same
      refine .inr ⟨fun _ => rfl, fun _ => ?_⟩
      rw [entries, setCopy_inum]
    · rw [entries, setCopy_icache_ne _ same]
      exact .inl rfl
  have others : ∀ j, j ≠ (fs.icache ip).inum → ∀ pos, after.addr j pos = fs.addr j pos := by
    intro j other pos
    refine concerns.addr_eq owned released.sb ?_ data other pos
    intro k small away
    rw [dinodes k small, if_neg away]
  have unique : after.Unique := by
    unfold Fs.Unique
    rw [entries]
    exact owned.unique_setCopy ip _
  have copied : after.icache ip = { fs.icache ip with copy := (fs.icache ip).copy.truncated } := by
    rw [entries, setCopy_icache_self]
  have isLive : after.Live ip := by
    unfold Live
    rw [copied]
    exact live
  have current : after.cur (fs.icache ip).inum = (fs.icache ip).copy.truncated := by
    have found := cur_of_live unique isLive
    rwa [copied] at found
  have empty : ∀ pos, after.addr (fs.icache ip).inum pos = 0 := by
    intro pos
    have zero : ∀ k, (fs.icache ip).copy.truncated.addr k = 0 := by
      intro k
      unfold Dinode.addr
      split <;> rfl
    unfold Fs.addr Dinode.addrAt
    rw [current, zero, zero, if_pos rfl, ite_self, ite_self]
  have logged : after.logged = fs.sb.iblock (fs.icache ip).inum :: mid.logged := by
    rw [← inum, ← released.sb]
    rfl
  refine ⟨⟨sameSb, ?_, concerns, ?_, unique, ?_, ?_, ?_, data, ?_, ?_⟩, entries, ?_, ?_, bits⟩
  · exact disk 1 (owned.one_lt_iblock _).ne fun b _ => (owned.one_lt_bblock b).ne
  · intro jp
    rw [entries, setCopy_ref, setCopy_inum]
    exact owned.inums jp
  · intro j small away
    rw [dinodes j small, if_neg away]
  · intro jp jpLive number
    have same : jp = ip := unique jp ip jpLive.ref_pos isLive.ref_pos (by rw [number, copied])
    rw [same, copied, dinodes _ inode, if_pos rfl]
    exact ⟨range, Dinode.Extends.refl _⟩
  · rintro c inside marked needed
    refine (bits c inside).mpr ⟨marked, ?_⟩
    rintro ⟨positive, pos, rfl⟩
    rcases needed with reserved | ⟨j, place, mapped, clash⟩
    · have bound := (owned.area _ _ positive).1
      omega
    · by_cases same : j = (fs.icache ip).inum
      · rw [same] at mapped
        exact mapped (empty place)
      · rw [others j same] at clash
        exact same (owned.once _ _ _ _ positive clash.symm).1.symm
  · intro _ _
    rw [current]
    exact Nat.zero_le _
  · intro pos mapped
    exact absurd (empty pos) mapped
  · intro c member
    rw [logged, List.mem_cons] at member
    exact member.elim (fun same => .inr (.inr same)) fun earlier =>
      (released.logged c earlier).imp_right .inl
  · rw [dinodes _ inode, if_pos rfl]

theorem itrunc_ensures :
    (itrunc ip).Ensures fs (fun _ after => Truncated fs after ip) (fun _ => False) := by
  unfold itrunc
  refine (itruncDirect_ensures owned.mounted (freeable_direct owned live)).bind ?_ (fun _ => id)
  rintro _ mid ⟨direct, cleared⟩
  have copied : mid.icache ip = { fs.icache ip with
      copy := (fs.icache ip).copy.clear (List.range NDIRECT) } := by
    rw [cleared, setCopy_icache_self]
  have pointer : (mid.icache ip).copy.addr NDIRECT = (fs.icache ip).copy.addr NDIRECT := by
    rw [copied, Dinode.addr_clear, if_neg (by simp)]
  have held := owned.addr_direct live (le_refl NDIRECT)
  have block : (fs.icache ip).copy.addr NDIRECT ≠ 0 →
      mid.disk ((fs.icache ip).copy.addr NDIRECT) = fs.disk ((fs.icache ip).copy.addr NDIRECT) := by
    intro present
    have data := (owned.area _ _ (held ▸ present)).1
    rw [held] at data
    exact direct.disk _ fun b inside => (owned.bblock_lt inside data).ne'
  have indirect := itruncIndirect_ensures (direct.mounted owned.mounted)
    (fun present => by
      rw [pointer] at present ⊢
      rw [block present]
      exact freeable_entries owned live present direct)
    (fun present => by
      rw [pointer] at present ⊢
      rw [block present]
      obtain ⟨-, inside, marked⟩ := owned.area _ _ (held ▸ present)
      rw [held] at inside marked
      refine ⟨direct.sb ▸ inside, (direct.used _ inside).mpr ⟨marked, ?_⟩, ?_⟩
      · rintro ⟨-, k, member, clash⟩
        rw [← held, ← owned.addr_direct live (List.mem_range.mp member).le] at clash
        have same := (owned.once _ _ _ _ (clash ▸ held ▸ present) clash).2
        exact absurd (List.mem_range.mp member) (by omega)
      · intro e entry clash
        rw [← owned.addr_entry live present entry, ← held] at clash
        have same := (owned.once _ _ _ _ (clash ▸ held ▸ present) clash).2
        omega)
  refine indirect.bind ?_ (fun _ => id)
  rintro _ last ⟨released, emptied⟩
  simp only [ensures_bind, ensures_getInode, ensures_setInode]
  refine ensures_iupdate.mpr ?_
  have all : Released fs last fun b =>
      b ≠ 0 ∧ ∃ pos, fs.addr (fs.icache ip).inum pos = b := by
    refine (direct.trans released).congr fun b => ?_
    rw [← blocks_iff owned live, pointer]
    unfold IndirectBlocks
    by_cases present : (fs.icache ip).copy.addr NDIRECT = 0
    · simp [present]
    · rw [block present]
  have final : last.icache =
      (fs.setCopy ip { (fs.icache ip).copy with addrs := fun _ => 0 }).icache := by
    rw [emptied, copied, Dinode.clear_all]
    exact setCopy_setCopy cleared
  have truncated := truncated_of_released owned live all final
  have copy : (last.icache ip).copy = { (fs.icache ip).copy with addrs := fun _ => 0 } := by
    rw [final, setCopy_icache_self]
  rw [copy]
  exact truncated

end Truncate

section Truncated

variable {fs after : Fs} {ip : Slot} (truncated : Truncated fs after ip)

include truncated

theorem Truncated.cur_other {j : Nat}
    (inside : j < fs.sb.ninodes) (other : j ≠ (fs.icache ip).inum) : after.cur j = fs.cur j :=
  truncated.change.concerns.cur_eq other (truncated.change.dinode j inside other)

theorem Truncated.live (live : fs.Live ip) : after.Live ip := by
  unfold Live
  rw [truncated.icache, setCopy_icache_self]
  exact live

theorem Truncated.cur_self (live : fs.Live ip) :
    after.cur (fs.icache ip).inum = (fs.icache ip).copy.truncated := by
  have current := cur_of_live truncated.change.unique (truncated.live live)
  rwa [truncated.icache, setCopy_icache_self] at current

theorem Truncated.addr_self (live : fs.Live ip) (pos : Nat) :
    after.addr (fs.icache ip).inum pos = 0 := by
  have zero : ∀ k, (fs.icache ip).copy.truncated.addr k = 0 := by
    intro k
    unfold Dinode.addr
    split <;> rfl
  unfold addr Dinode.addrAt
  rw [truncated.cur_self live, zero, zero, if_pos rfl, ite_self, ite_self]

end Truncated

end Xv6
