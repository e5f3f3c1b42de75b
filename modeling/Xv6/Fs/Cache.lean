import Xv6.Fs.Mapping

/-!
# The inode cache

Every operation on a cache entry or a disk inode concerns one inode.  `change`
says once what such an operation has to respect; the operations are its
instances.
-/

open Function (update_idem update_of_ne)

namespace Xv6

open Exec

namespace Fs

variable {fs after : Fs} {i : Nat}

/-- Entries that change belong to inode `i`, before and after. -/
def Concerns (fs after : Fs) (i : Nat) : Prop :=
  ∀ ip, after.icache ip = fs.icache ip ∨
    (fs.Live ip → (fs.icache ip).inum = i) ∧ (after.Live ip → (after.icache ip).inum = i)

theorem Concerns.live_iff (concerns : Concerns fs after i) {j : Nat} (other : j ≠ i) (ip : Slot) :
    after.Live ip ∧ (after.icache ip).inum = j ↔ fs.Live ip ∧ (fs.icache ip).inum = j := by
  rcases concerns ip with same | ⟨before, later⟩
  · unfold Live
    rw [same]
  · constructor
    · rintro ⟨live, number⟩
      exact absurd (number.symm.trans (later live)) other
    · rintro ⟨live, number⟩
      exact absurd (number.symm.trans (before live)) other

theorem Concerns.icache_eq (concerns : Concerns fs after i) {ip : Slot} (live : fs.Live ip)
    (other : (fs.icache ip).inum ≠ i) : after.icache ip = fs.icache ip := by
  rcases concerns ip with same | ⟨before, -⟩
  · exact same
  · exact absurd (before live) other

theorem Concerns.cur_eq (concerns : Concerns fs after i) {j : Nat} (other : j ≠ i)
    (dinode : after.dinode j = fs.dinode j) : after.cur j = fs.cur j := by
  apply cur_congr (concerns.live_iff other) _ dinode
  rintro ip live rfl
  rw [concerns.icache_eq live other]

theorem addr_of_ge (outside : ¬i < fs.sb.ninodes) (pos : Nat) : fs.addr i pos = 0 := by
  unfold addr
  rw [if_neg (fun all => outside all.1)]

theorem Concerns.addr_eq (concerns : Concerns fs after i) (owned : fs.Owned)
    (sb : after.sb = fs.sb) (dinode : ∀ j < fs.sb.ninodes, j ≠ i → after.dinode j = fs.dinode j)
    (data : ∀ c, fs.sb.datastart ≤ c → c < fs.sb.size → after.disk c = fs.disk c) {j : Nat}
    (other : j ≠ i) (pos : Nat) : after.addr j pos = fs.addr j pos := by
  by_cases inode : j < fs.sb.ninodes
  · refine addr_congr sb (concerns.cur_eq other (dinode j inode other)) ?_ pos
    intro mapped
    obtain ⟨lower, upper, -⟩ := owned.area j NDIRECT mapped
    exact data _ lower upper
  · rw [addr_of_ge inode, addr_of_ge (sb ▸ inode)]

/-- What an operation on inode `i` has to respect. -/
structure Change (fs after : Fs) (i : Nat) : Prop where
  sb : after.sb = fs.sb
  superblock : after.disk 1 = fs.disk 1
  concerns : Concerns fs after i
  inums : ∀ ip, 0 < (after.icache ip).ref → (after.icache ip).inum < fs.sb.ninodes
  unique : after.Unique
  dinode : ∀ j < fs.sb.ninodes, j ≠ i → after.dinode j = fs.dinode j
  copies : ∀ ip, after.Live ip → (after.icache ip).inum = i →
    (after.icache ip).copy.InRange ∧ (after.icache ip).copy.Extends (after.dinode i)
  /-- no bit is cleared that is needed -/
  used : ∀ c < fs.sb.size, fs.used c = true →
    (c < fs.sb.datastart ∨ ∃ j pos, after.addr j pos ≠ 0 ∧ after.addr j pos = c) →
      after.used c = true
  data : ∀ c, fs.sb.datastart ≤ c → c < fs.sb.size → after.disk c = fs.disk c
  bounded : i < fs.sb.ninodes → (after.cur i).type ≠ 0 → (after.cur i).size ≤ MAXFILE * BSIZE
  addr : ∀ pos, after.addr i pos ≠ 0 → after.addr i pos = fs.addr i pos

section Change

variable (owned : fs.Owned) (change : Change fs after i)

include owned change

theorem Change.addr_other {j : Nat} (other : j ≠ i) (pos : Nat) :
    after.addr j pos = fs.addr j pos :=
  change.concerns.addr_eq owned change.sb change.dinode change.data other pos

theorem Change.addr_le {j pos : Nat} (mapped : after.addr j pos ≠ 0) :
    after.addr j pos = fs.addr j pos := by
  by_cases other : j = i
  · subst other
    exact change.addr pos mapped
  · exact change.addr_other owned other pos

theorem Change.toOwned : after.Owned := by
  refine ⟨change.sb ▸ owned.layout, ?_, change.sb ▸ change.inums, change.unique, ?_, ?_, ?_, ?_, ?_,
    ?_⟩
  · rw [change.superblock, change.sb, owned.superblock]
  · intro ip live
    by_cases here : (after.icache ip).inum = i
    · exact (change.copies ip live here).1
    · have before := (change.concerns.live_iff here ip).mp ⟨live, rfl⟩
      rw [change.concerns.icache_eq before.1 (before.2 ▸ here)]
      exact owned.range ip before.1
  · intro ip live
    by_cases here : (after.icache ip).inum = i
    · rw [here]
      exact (change.copies ip live here).2
    · have before := (change.concerns.live_iff here ip).mp ⟨live, rfl⟩
      have inode := change.inums ip live.ref_pos
      rw [change.dinode _ inode here, change.concerns.icache_eq before.1 (before.2 ▸ here)]
      exact owned.copies ip before.1
  · intro j inode
    rw [change.sb] at inode
    by_cases here : j = i
    · subst here
      exact change.bounded inode
    · rw [change.concerns.cur_eq here (change.dinode j inode here)]
      exact owned.bounded j inode
  · intro b reserved
    rw [change.sb] at reserved
    exact change.used b (reserved.trans_le (Nat.sub_le _ _)) (owned.reserved b reserved)
      (.inl reserved)
  · intro j pos mapped
    have same := change.addr_le owned mapped
    obtain ⟨lower, upper, marked⟩ := owned.area j pos (same ▸ mapped)
    have kept := change.used _ upper marked (.inr ⟨j, pos, mapped, same⟩)
    rw [same, change.sb]
    exact ⟨lower, upper, kept⟩
  · intro j k pos other mapped clash
    have first := change.addr_le owned mapped
    have second := change.addr_le owned (clash ▸ mapped)
    exact owned.once j k pos other (first ▸ mapped) (first ▸ second ▸ clash)

theorem Change.byte_eq {j k : Nat}
    (kept : j = i → after.addr j (blockPos (k / BSIZE)) = fs.addr j (blockPos (k / BSIZE))) :
    after.byte j k = fs.byte j k := by
  refine byte_congr ?_ ?_
  · by_cases here : j = i
    · exact kept here
    · exact change.addr_other owned here _
  · intro mapped
    obtain ⟨lower, upper, -⟩ := owned.area _ _ mapped
    exact change.data _ lower upper

end Change

/-! ## Changes of a cache entry -/

theorem live_setSlot_ne {ip jp : Slot} {inode : Inode} (other : jp ≠ ip) :
    (fs.setSlot ip inode).Live jp ↔ fs.Live jp := by
  unfold Live
  rw [setSlot_icache_ne inode other]

theorem addrAt_of_extends {d old : Dinode} (ahead : d.Extends old) {disk : Disk} {pos : Nat}
    (mapped : old.addrAt disk pos ≠ 0) : d.addrAt disk pos = old.addrAt disk pos := by
  unfold Dinode.addrAt at mapped ⊢
  split
  next direct =>
    rw [if_pos direct] at mapped
    exact ahead.addr pos mapped
  next entry =>
    rw [if_neg entry] at mapped
    by_cases pointer : old.addr NDIRECT = 0
    · rw [if_pos pointer] at mapped
      exact absurd rfl mapped
    · rw [ahead.addr NDIRECT pointer]

theorem addr_of_extends (sb : after.sb = fs.sb) (disk : after.disk = fs.disk)
    (ahead : (fs.cur i).Extends (after.cur i)) {pos : Nat} (mapped : after.addr i pos ≠ 0) :
    after.addr i pos = fs.addr i pos := by
  unfold addr at mapped ⊢
  rw [sb, disk] at mapped ⊢
  rw [ahead.type]
  split
  next inside =>
    rw [if_pos inside] at mapped
    exact (addrAt_of_extends ahead mapped).symm
  · rfl

theorem Owned.cur_extends (owned : fs.Owned) (i : Nat) : (fs.cur i).Extends (fs.dinode i) := by
  by_cases cached : ∃ ip, fs.Live ip ∧ (fs.icache ip).inum = i
  · obtain ⟨ip, live, rfl⟩ := cached
    rw [cur_of_live owned.unique live]
    exact owned.copies ip live
  · have absent : ∀ ip, fs.Live ip → (fs.icache ip).inum ≠ i :=
      fun ip live number => cached ⟨ip, live, number⟩
    rw [cur_of_not_live absent]
    exact Dinode.Extends.refl _

/-- The entry at `ip` may be set to `inode` on behalf of inode `i`. -/
structure Settable (fs : Fs) (ip : Slot) (inode : Inode) (i : Nat) : Prop where
  before : fs.Live ip → (fs.icache ip).inum = i
  inum : 0 < inode.ref → inode.inum = i ∧ i < fs.sb.ninodes
  alone : ∀ jp, jp ≠ ip → 0 < (fs.icache jp).ref → (fs.icache jp).inum ≠ i
  copy : 0 < inode.ref → inode.valid = true → inode.copy.type ≠ 0 →
    fs.Live ip ∧ inode.copy = (fs.icache ip).copy ∨ inode.copy = fs.dinode i

section SetSlot

variable {ip : Slot} {inode : Inode}

theorem Settable.unique (settable : Settable fs ip inode i) (owned : fs.Owned) :
    (fs.setSlot ip inode).Unique := by
  intro first second firstRef secondRef number
  by_cases one : first = ip
  · by_cases two : second = ip
    · rw [one, two]
    · rw [one, setSlot_icache_self] at firstRef number
      rw [setSlot_icache_ne inode two] at secondRef number
      exact absurd (number.symm.trans (settable.inum firstRef).1)
        (settable.alone second two secondRef)
  · by_cases two : second = ip
    · rw [two, setSlot_icache_self] at secondRef number
      rw [setSlot_icache_ne inode one] at firstRef number
      exact absurd (number.trans (settable.inum secondRef).1) (settable.alone first one firstRef)
    · rw [setSlot_icache_ne inode one] at firstRef number
      rw [setSlot_icache_ne inode two] at secondRef number
      exact owned.unique first second firstRef secondRef number

theorem Settable.cur_or (settable : Settable fs ip inode i) (owned : fs.Owned) :
    (fs.setSlot ip inode).cur i = fs.cur i ∨ (fs.setSlot ip inode).cur i = fs.dinode i := by
  by_cases live : (fs.setSlot ip inode).Live ip
  · have current := cur_of_live (settable.unique owned) live
    unfold Live at live
    rw [setSlot_icache_self] at live current
    rw [(settable.inum live.1).1] at current
    rcases settable.copy live.1 live.2.1 live.2.2 with ⟨before, same⟩ | same
    · left
      have old := cur_of_live owned.unique before
      rw [settable.before before] at old
      rw [current, same, old]
    · right
      rw [current, same]
  · right
    apply cur_of_not_live
    intro jp jpLive
    have other : jp ≠ ip := by
      rintro rfl
      exact live jpLive
    rw [setSlot_icache_ne inode other]
    exact settable.alone jp other ((live_setSlot_ne other).mp jpLive).ref_pos

theorem Settable.cur_eq (settable : Settable fs ip inode i) (owned : fs.Owned)
    (kept : fs.Live ip → (fs.setSlot ip inode).Live ip ∧ inode.copy = (fs.icache ip).copy) :
    (fs.setSlot ip inode).cur i = fs.cur i := by
  by_cases before : fs.Live ip
  · obtain ⟨live, same⟩ := kept before
    have current := cur_of_live (settable.unique owned) live
    have old := cur_of_live owned.unique before
    unfold Live at live
    rw [setSlot_icache_self] at live current
    rw [(settable.inum live.1).1] at current
    rw [settable.before before] at old
    rw [current, same, old]
  · have old : fs.cur i = fs.dinode i := by
      apply cur_of_not_live
      intro jp live
      have other : jp ≠ ip := by
        rintro rfl
        exact before live
      exact settable.alone jp other live.ref_pos
    rcases settable.cur_or owned with same | same
    · exact same
    · rw [same, old]

theorem Settable.change (settable : Settable fs ip inode i) (owned : fs.Owned) :
    Change fs (fs.setSlot ip inode) i := by
  have ahead : (fs.cur i).Extends ((fs.setSlot ip inode).cur i) := by
    rcases settable.cur_or owned with same | same
    · rw [same]
      exact Dinode.Extends.refl _
    · rw [same]
      exact owned.cur_extends i
  refine ⟨rfl, rfl, ?_, ?_, settable.unique owned, fun _ _ _ => rfl, ?_, fun _ _ marked _ => marked,
    fun _ _ _ => rfl, ?_, ?_⟩
  · intro jp
    by_cases other : jp = ip
    · subst other
      refine .inr ⟨settable.before, ?_⟩
      intro live
      unfold Live at live
      rw [setSlot_icache_self] at live ⊢
      exact (settable.inum live.1).1
    · exact .inl (setSlot_icache_ne inode other)
  · intro jp
    by_cases other : jp = ip
    · rw [other, setSlot_icache_self]
      intro positive
      rw [(settable.inum positive).1]
      exact (settable.inum positive).2
    · rw [setSlot_icache_ne inode other]
      exact owned.inums jp
  · intro jp live number
    by_cases other : jp = ip
    · unfold Live at live
      rw [other, setSlot_icache_self] at live ⊢
      rcases settable.copy live.1 live.2.1 live.2.2 with ⟨before, same⟩ | same
      · rw [same]
        have ahead := owned.copies ip before
        rw [settable.before before] at ahead
        exact ⟨owned.range ip before, ahead⟩
      · rw [same]
        exact ⟨Superblock.inRange_dinode _ _ _, Dinode.Extends.refl _⟩
    · rw [setSlot_icache_ne inode other] at number
      exact absurd number
        (settable.alone jp other ((live_setSlot_ne other).mp live).ref_pos)
  · intro inside type
    rw [← ahead.size]
    rw [← ahead.type] at type
    exact owned.bounded i inside type
  · intro pos mapped
    exact addr_of_extends (by rfl) (by rfl) ahead mapped

theorem Owned.alone (owned : fs.Owned) (referenced : 0 < (fs.icache ip).ref) (jp : Slot)
    (other : jp ≠ ip) (positive : 0 < (fs.icache jp).ref) :
    (fs.icache jp).inum ≠ (fs.icache ip).inum :=
  fun same => other (owned.unique jp ip positive referenced same)

theorem Owned.retag (owned : fs.Owned) (referenced : 0 < (fs.icache ip).ref) (ref : Int)
    (busy : Bool) :
    Settable fs ip { fs.icache ip with ref := ref, busy := busy } (fs.icache ip).inum where
  before _ := rfl
  inum _ := ⟨rfl, owned.inums ip referenced⟩
  alone := owned.alone referenced
  copy _ valid type := .inl ⟨⟨referenced, valid, type⟩, rfl⟩

theorem Owned.forget (owned : fs.Owned) (referenced : 0 < (fs.icache ip).ref) (ref : Int)
    (busy : Bool) :
    Settable fs ip { fs.icache ip with ref := ref, busy := busy, valid := false }
      (fs.icache ip).inum where
  before _ := rfl
  inum _ := ⟨rfl, owned.inums ip referenced⟩
  alone := owned.alone referenced
  copy _ valid := absurd valid Bool.false_ne_true

theorem Owned.load (owned : fs.Owned) (referenced : 0 < (fs.icache ip).ref) :
    Settable fs ip { fs.icache ip with copy := fs.dinode (fs.icache ip).inum, valid := true }
      (fs.icache ip).inum where
  before _ := rfl
  inum _ := ⟨rfl, owned.inums ip referenced⟩
  alone := owned.alone referenced
  copy _ _ _ := .inr rfl

theorem Settable.recycle (unused : (fs.icache ip).ref = 0) {inum : Nat}
    (inside : inum < fs.sb.ninodes)
    (absent : ∀ jp, 0 < (fs.icache jp).ref → (fs.icache jp).inum ≠ inum) :
    Settable fs ip { fs.icache ip with inum := inum, ref := 1, busy := false, valid := false }
      inum where
  before live := by
    have positive := live.ref_pos
    omega
  inum _ := ⟨rfl, inside⟩
  alone jp _ := absent jp
  copy _ valid := absurd valid Bool.false_ne_true

end SetSlot

/-- Only the cache has changed, and nothing that can be read through it. -/
structure Alike (fs after : Fs) : Prop where
  owned : after.Owned
  disk : after.disk = fs.disk
  sb : after.sb = fs.sb
  logged : after.logged = fs.logged
  cur : ∀ j, after.cur j = fs.cur j

section Alike

variable {mid : Fs}

theorem Alike.trans (first : Alike fs mid) (second : Alike mid after) : Alike fs after :=
  ⟨second.owned, second.disk.trans first.disk, second.sb.trans first.sb,
    second.logged.trans first.logged, fun j => (second.cur j).trans (first.cur j)⟩

theorem Alike.addr (alike : Alike fs after) (j pos : Nat) : after.addr j pos = fs.addr j pos :=
  addr_congr alike.sb (alike.cur j) (fun _ => by rw [alike.disk]) pos

theorem Alike.byte (alike : Alike fs after) (j k : Nat) : after.byte j k = fs.byte j k :=
  byte_congr (alike.addr j _) (fun _ => by rw [alike.disk])

end Alike

theorem Settable.alike {ip : Slot} {inode : Inode} (settable : Settable fs ip inode i)
    (owned : fs.Owned)
    (kept : fs.Live ip → (fs.setSlot ip inode).Live ip ∧ inode.copy = (fs.icache ip).copy) :
    Alike fs (fs.setSlot ip inode) := by
  have change := settable.change owned
  refine ⟨change.toOwned owned, rfl, rfl, rfl, ?_⟩
  intro j
  by_cases here : j = i
  · subst here
    exact settable.cur_eq owned kept
  · exact change.concerns.cur_eq here rfl

/-! ## Storing an inode -/

/-- The state after a copy has been changed and written back by `iupdate`. -/
def store (fs : Fs) (ip : Slot) (d : Dinode) : Fs :=
  (fs.setCopy ip d).write (fs.sb.iblock (fs.icache ip).inum)
    ((fs.disk (fs.sb.iblock (fs.icache ip).inum)).setDinode ((fs.icache ip).inum % IPB) d)

section Store

variable {ip : Slot} {d : Dinode}

theorem ensures_iupdate {good : Unit → Fs → Prop} {bad : Stop → Prop} :
    (iupdate ip).Ensures (fs.setSlot ip { fs.icache ip with copy := d }) good bad ↔
      good () (fs.store ip d) := by
  unfold iupdate
  simp only [ensures_bind, ensures_getInode, ensures_getSb, ensures_bread, ensures_logWrite,
    setSlot_icache_self]
  rfl

@[simp]
theorem store_icache (ip : Slot) (d : Dinode) :
    (fs.store ip d).icache = (fs.setCopy ip d).icache := rfl

theorem dinode_store (range : d.InRange) (j : Nat) :
    (fs.store ip d).dinode j = if j = (fs.icache ip).inum then d else fs.dinode j :=
  Superblock.dinode_setDinode fs.disk range j

theorem Owned.used_store (owned : fs.Owned) (live : fs.Live ip) (c : Nat) :
    (fs.store ip d).used c = fs.used c :=
  Superblock.used_update_ne (owned.iblock_lt_bblock (owned.inums ip live.ref_pos) c).ne'

theorem Owned.cur_store (owned : fs.Owned) (live : fs.Live ip) (range : d.InRange) :
    (fs.store ip d).cur (fs.icache ip).inum = d := by
  by_cases type : d.type = 0
  · rw [cur_of_not_live, dinode_store range, if_pos rfl]
    intro jp jpLive
    have other : jp ≠ ip := by
      rintro rfl
      exact jpLive.2.2 (by rw [store_icache, setCopy_icache_self]; exact type)
    have unchanged : (fs.store ip d).icache jp = fs.icache jp := setCopy_icache_ne d other
    have positive := jpLive.ref_pos
    rw [unchanged] at positive ⊢
    exact owned.alone live.ref_pos jp other positive
  · have isLive : (fs.store ip d).Live ip := live_setCopy_self live type
    have unique : (fs.store ip d).Unique := owned.unique_setCopy ip d
    have current := cur_of_live unique isLive
    rw [store_icache, setCopy_icache_self] at current
    exact current

theorem Owned.addr_store (owned : fs.Owned) (live : fs.Live ip) (range : d.InRange)
    (addrs : d.type ≠ 0 → ∀ pos, d.addrAt fs.disk pos ≠ 0 →
      d.addrAt fs.disk pos = (fs.icache ip).copy.addrAt fs.disk pos) (pos : Nat) :
    (fs.store ip d).addr (fs.icache ip).inum pos =
      if d.type ≠ 0 ∧ pos < NADDR then d.addrAt fs.disk pos else 0 := by
  have inode := owned.inums ip live.ref_pos
  have sb : (fs.store ip d).sb = fs.sb := rfl
  unfold addr
  rw [owned.cur_store live range, sb]
  simp only [inode, true_and]
  split
  next inside =>
    unfold Dinode.addrAt
    split
    · rfl
    · split
      · rfl
      next pointer =>
        -- the indirect block is a data block, so not the block of the inode
        have first : d.addrAt fs.disk NDIRECT = d.addr NDIRECT := if_pos le_rfl
        have held := addrs inside.1 NDIRECT (first ▸ pointer)
        have mapped := owned.addr_of_live live NDIRECT
        rw [if_pos (by decide), ← held, first] at mapped
        obtain ⟨lower, upper, -⟩ := owned.area _ NDIRECT (mapped ▸ pointer)
        rw [mapped] at lower upper
        have unchanged : (fs.store ip d).disk (d.addr NDIRECT) = fs.disk (d.addr NDIRECT) :=
          update_of_ne (owned.iblock_lt inode lower upper).ne' _ _
        rw [unchanged]
  · rfl

/-- A cached inode may be rewritten if its addresses are among the old ones. -/
theorem Owned.store (owned : fs.Owned) (live : fs.Live ip) (range : d.InRange)
    (bounded : d.type ≠ 0 → d.size ≤ MAXFILE * BSIZE)
    (addrs : d.type ≠ 0 → ∀ pos, d.addrAt fs.disk pos ≠ 0 →
      d.addrAt fs.disk pos = (fs.icache ip).copy.addrAt fs.disk pos) :
    Change fs (fs.store ip d) (fs.icache ip).inum := by
  have inode := owned.inums ip live.ref_pos
  have current := owned.cur_store live range
  have data : ∀ c, fs.sb.datastart ≤ c → c < fs.sb.size → (fs.store ip d).disk c = fs.disk c :=
    fun c lower upper => update_of_ne (owned.iblock_lt inode lower upper).ne' _ _
  refine ⟨rfl, ?_, ?_, ?_, owned.unique_setCopy ip d, ?_, ?_, ?_, data, ?_, ?_⟩
  · exact update_of_ne (owned.one_lt_iblock _).ne _ _
  · intro jp
    by_cases other : jp = ip
    · subst other
      exact .inr ⟨fun _ => rfl, fun _ => setCopy_inum jp jp d⟩
    · exact .inl (setCopy_icache_ne d other)
  · intro jp
    rw [store_icache, setCopy_ref, setCopy_inum]
    exact owned.inums jp
  · intro j _ other
    rw [dinode_store range, if_neg other]
  · intro jp jpLive number
    have same : jp = ip := by
      by_contra other
      have unchanged : (fs.store ip d).icache jp = fs.icache jp := setCopy_icache_ne d other
      have positive := jpLive.ref_pos
      rw [unchanged] at positive number
      exact owned.alone live.ref_pos jp other positive number
    rw [same, store_icache, setCopy_icache_self, dinode_store range, if_pos rfl]
    exact ⟨range, Dinode.Extends.refl d⟩
  · intro c _ marked _
    rw [owned.used_store live]
    exact marked
  · intro _ type
    rw [current] at type ⊢
    exact bounded type
  · intro pos mapped
    rw [owned.addr_store live range addrs] at mapped ⊢
    rw [owned.addr_of_live live]
    split at mapped
    next inside =>
      rw [if_pos inside, if_pos inside.2]
      exact addrs inside.1 pos mapped
    · exact absurd rfl mapped

/-- Rewriting the header of an inode leaves all addresses and contents alone. -/
structure SameBlocks (fs after : Fs) : Prop where
  owned : after.Owned
  addr : ∀ j pos, after.addr j pos = fs.addr j pos
  used : ∀ c < fs.sb.size, after.used c = fs.used c
  byte : ∀ j k, after.byte j k = fs.byte j k

theorem Owned.store_header (owned : fs.Owned) (live : fs.Live ip) (range : d.InRange)
    (type : d.type ≠ 0) (bounded : d.size ≤ MAXFILE * BSIZE)
    (addrs : d.addrs = (fs.icache ip).copy.addrs) : SameBlocks fs (fs.store ip d) := by
  have same : ∀ pos, d.addrAt fs.disk pos = (fs.icache ip).copy.addrAt fs.disk pos := by
    intro pos
    unfold Dinode.addrAt Dinode.addr
    rw [addrs]
  have change := owned.store live range (fun _ => bounded) (fun _ pos _ => same pos)
  have addr : ∀ j pos, (fs.store ip d).addr j pos = fs.addr j pos := by
    intro j pos
    by_cases here : j = (fs.icache ip).inum
    · subst here
      rw [owned.addr_store live range (fun _ pos _ => same pos), owned.addr_of_live live, same]
      simp only [type, ne_eq, not_false_iff, true_and]
    · exact change.addr_other owned here pos
  exact ⟨change.toOwned owned, addr, fun c _ => owned.used_store live c,
    fun j k => change.byte_eq owned fun _ => addr j _⟩

end Store

/-! ## Allocating an inode -/

def setDinode (fs : Fs) (inum : Nat) (d : Dinode) : Fs :=
  fs.write (fs.sb.iblock inum) ((fs.disk (fs.sb.iblock inum)).setDinode (inum % IPB) d)

section SetDinode

variable {inum : Nat} {d : Dinode}

theorem dinode_setDinode (range : d.InRange) (j : Nat) :
    (fs.setDinode inum d).dinode j = if j = inum then d else fs.dinode j :=
  Superblock.dinode_setDinode fs.disk range j

theorem Owned.not_live_of_free (owned : fs.Owned) (free : (fs.dinode inum).type = 0) (ip : Slot)
    (live : fs.Live ip) : (fs.icache ip).inum ≠ inum := by
  rintro rfl
  exact live.2.2 ((owned.copies ip live).type.trans free)

theorem Owned.cur_setDinode (owned : fs.Owned) (free : (fs.dinode inum).type = 0)
    (range : d.InRange) : (fs.setDinode inum d).cur inum = d := by
  rw [cur_of_not_live, dinode_setDinode range, if_pos rfl]
  exact owned.not_live_of_free free

theorem Owned.addr_setDinode (owned : fs.Owned) (free : (fs.dinode inum).type = 0)
    (range : d.InRange) (blank : ∀ disk pos, d.addrAt disk pos = 0) (pos : Nat) :
    (fs.setDinode inum d).addr inum pos = 0 := by
  unfold addr
  rw [owned.cur_setDinode free range, blank, ite_self]

theorem Owned.used_setDinode (owned : fs.Owned) (inside : inum < fs.sb.ninodes) (c : Nat) :
    (fs.setDinode inum d).used c = fs.used c :=
  Superblock.used_update_ne (owned.iblock_lt_bblock inside c).ne'

theorem Owned.setDinode (owned : fs.Owned) (inside : inum < fs.sb.ninodes)
    (free : (fs.dinode inum).type = 0) (range : d.InRange)
    (blank : ∀ disk pos, d.addrAt disk pos = 0) (bounded : d.size ≤ MAXFILE * BSIZE) :
    Change fs (fs.setDinode inum d) inum := by
  refine ⟨rfl, ?_, fun _ => .inl rfl, owned.inums, owned.unique, ?_, ?_, ?_, ?_, ?_, ?_⟩
  · exact update_of_ne (owned.one_lt_iblock _).ne _ _
  · intro j _ other
    rw [dinode_setDinode range, if_neg other]
  · intro ip live number
    exact absurd number (owned.not_live_of_free free ip live)
  · intro c _ marked _
    rw [owned.used_setDinode inside]
    exact marked
  · intro c lower upper
    exact update_of_ne (owned.iblock_lt inside lower upper).ne' _ _
  · intro _ _
    rw [owned.cur_setDinode free range]
    exact bounded
  · intro pos mapped
    exact absurd (owned.addr_setDinode free range blank pos) mapped

end SetDinode

def take (fs : Fs) (type inum : Nat) : Fs :=
  fs.write (fs.sb.iblock inum)
    ((fs.disk (fs.sb.iblock inum)).setDinode (inum % IPB) (Dinode.zeroed type))

section Take

variable {type inum : Nat}

theorem addrAt_blank {d : Dinode} (blank : ∀ k, d.addrs k = 0) (disk : Disk) (pos : Nat) :
    d.addrAt disk pos = 0 := by
  have empty : ∀ k, d.addr k = 0 := by
    intro k
    unfold Dinode.addr
    split
    · exact blank _
    · rfl
  unfold Dinode.addrAt
  rw [empty, empty, if_pos rfl, ite_self]

theorem addrAt_zeroed (disk : Disk) (pos : Nat) : (Dinode.zeroed type).addrAt disk pos = 0 :=
  addrAt_blank (fun _ => rfl) disk pos

theorem dinode_take (fits : type < 2 ^ 16) (j : Nat) :
    (fs.take type inum).dinode j = if j = inum then Dinode.zeroed type else fs.dinode j :=
  dinode_setDinode (Dinode.inRange_zeroed fits) j

theorem Owned.cur_take (owned : fs.Owned) (free : (fs.dinode inum).type = 0)
    (fits : type < 2 ^ 16) : (fs.take type inum).cur inum = Dinode.zeroed type :=
  owned.cur_setDinode free (Dinode.inRange_zeroed fits)

theorem Owned.addr_take (owned : fs.Owned) (free : (fs.dinode inum).type = 0)
    (fits : type < 2 ^ 16) (pos : Nat) : (fs.take type inum).addr inum pos = 0 :=
  owned.addr_setDinode free (Dinode.inRange_zeroed fits) addrAt_zeroed pos

theorem Owned.used_take (owned : fs.Owned) (inside : inum < fs.sb.ninodes) (c : Nat) :
    (fs.take type inum).used c = fs.used c :=
  owned.used_setDinode inside c

theorem Owned.take (owned : fs.Owned) (inside : inum < fs.sb.ninodes)
    (free : (fs.dinode inum).type = 0) (fits : type < 2 ^ 16) :
    Change fs (fs.take type inum) inum :=
  owned.setDinode inside free (Dinode.inRange_zeroed fits) addrAt_zeroed (Nat.zero_le _)

end Take

/-! ## `iget` -/

/-- The result of `iget`: an entry in use for the inode, or a recycled one. -/
inductive Got (fs : Fs) (inum : Nat) : Slot → Fs → Prop where
  | hit {ip : Slot} : 0 < (fs.icache ip).ref → (fs.icache ip).inum = inum →
      Got fs inum ip (fs.setSlot ip { fs.icache ip with ref := (fs.icache ip).ref + 1 })
  | miss {ip : Slot} : (fs.icache ip).ref = 0 →
      (∀ jp, 0 < (fs.icache jp).ref → (fs.icache jp).inum ≠ inum) →
      Got fs inum ip (fs.setSlot ip
        { fs.icache ip with inum := inum, ref := 1, busy := false, valid := false })

theorem Got.sb {inum : Nat} {ip : Slot} (got : Got fs inum ip after) : after.sb = fs.sb := by
  cases got <;> rfl

theorem Got.settable {inum : Nat} {ip : Slot} (got : Got fs inum ip after) (owned : fs.Owned)
    (inside : inum < fs.sb.ninodes) :
    ∃ inode, after = fs.setSlot ip inode ∧ Settable fs ip inode inum ∧
      (fs.Live ip → after.Live ip ∧ inode.copy = (fs.icache ip).copy) := by
  cases got with
  | hit referenced number =>
    refine ⟨_, rfl, ?_, ?_⟩
    · subst number
      exact owned.retag referenced _ _
    · intro live
      unfold Live
      rw [setSlot_icache_self]
      refine ⟨⟨?_, live.2.1, live.2.2⟩, rfl⟩
      dsimp only
      omega
  | miss unused absent =>
    refine ⟨_, rfl, Settable.recycle unused inside absent, ?_⟩
    intro live
    have positive := live.ref_pos
    omega

theorem iget_ensures (fs : Fs) (inum : Nat) :
    (iget inum).Ensures fs (Got fs inum) (fun stop => stop = .panic .igetNoInodes) := by
  unfold iget
  simp only [ensures_bind, ensures_get]
  split
  next ip found =>
    have holds := List.find?_some found
    simp only [Bool.and_eq_true, decide_eq_true_eq, beq_iff_eq] at holds
    exact Got.hit holds.1 holds.2
  next search =>
    rw [List.find?_eq_none] at search
    have absent : ∀ jp, 0 < (fs.icache jp).ref → (fs.icache jp).inum ≠ inum := by
      intro jp positive
      have fails := search jp (List.mem_finRange jp)
      simpa [positive] using fails
    split
    next ip found =>
      have unused := List.find?_some found
      exact Got.miss (by simpa using unused) absent
    · exact rfl

/-! ## Locking -/

section Settled

variable {ip : Slot}

/-- No operation is under way: every valid entry in use holds an allocated inode. -/
def Settled (fs : Fs) : Prop :=
  ∀ ip, 0 < (fs.icache ip).ref → (fs.icache ip).valid = true → (fs.icache ip).copy.type ≠ 0

theorem Settled.setSlot {inode : Inode} (settled : fs.Settled)
    (fine : 0 < inode.ref → inode.valid = true → inode.copy.type ≠ 0) :
    (fs.setSlot ip inode).Settled := by
  intro jp
  by_cases same : jp = ip
  · rw [same, setSlot_icache_self]
    exact fine
  · rw [setSlot_icache_ne inode same]
    exact settled jp

theorem Settled.got {inum : Nat} (settled : fs.Settled) (got : Got fs inum ip after) :
    after.Settled := by
  cases got with
  | hit referenced number => exact settled.setSlot fun _ => settled ip referenced
  | miss unused absent => exact settled.setSlot fun _ valid => absurd valid Bool.false_ne_true

theorem Settled.setCopy {d : Dinode} (settled : fs.Settled)
    (icache : after.icache = (fs.setCopy ip d).icache) (type : d.type ≠ 0) : after.Settled := by
  intro jp
  rw [icache]
  by_cases same : jp = ip
  · rw [same, setCopy_icache_self]
    exact fun _ _ => type
  · rw [setCopy_icache_ne d same]
    exact settled jp

def Locked (fs : Fs) (ip : Slot) : Prop :=
  0 < (fs.icache ip).ref ∧ (fs.icache ip).busy = true ∧ (fs.icache ip).valid = true

instance (fs : Fs) (ip : Slot) : Decidable (fs.Locked ip) := inferInstanceAs (Decidable (_ ∧ _ ∧ _))

theorem Locked.live (locked : fs.Locked ip) (settled : fs.Settled) : fs.Live ip :=
  ⟨locked.1, locked.2.2, settled ip locked.1 locked.2.2⟩

def lockedEntry (fs : Fs) (ip : Slot) : Inode :=
  { fs.icache ip with busy := true, valid := true, copy := fs.cur (fs.icache ip).inum }

theorem ilock_ensures (owned : fs.Owned) (settled : fs.Settled) :
    (ilock ip).Ensures fs
      (fun _ after => after = fs.setSlot ip (fs.lockedEntry ip) ∧ 0 < (fs.icache ip).ref ∧
        (fs.icache ip).busy = false ∧ (fs.cur (fs.icache ip).inum).type ≠ 0)
      (fun stop => stop = .panic .ilock ∨ stop = .asleep ∨ stop = .panic .ilockNoType) := by
  unfold ilock ilockAcquire ilockLoad
  simp only [ensures_bind, ensures_getInode]
  split
  · exact .inl rfl
  next referenced =>
    have positive : 0 < (fs.icache ip).ref := by omega
    split
    · exact .inr (.inl rfl)
    next idle =>
      simp only [ensures_setInode, setSlot_icache_self]
      split
      next valid =>
        have live : fs.Live ip := ⟨positive, valid, settled ip positive valid⟩
        have current := cur_of_live owned.unique live
        refine ⟨?_, positive, Bool.eq_false_iff.mpr idle, current ▸ live.2.2⟩
        unfold lockedEntry
        rw [current, ← valid]
      next invalid =>
        have current : fs.cur (fs.icache ip).inum = fs.dinode (fs.icache ip).inum := by
          apply cur_of_not_live
          intro jp live number
          have same := owned.unique jp ip live.ref_pos positive number
          exact invalid (same ▸ live.2.1)
        simp only [ensures_bind, ensures_getSb, ensures_bread, ensures_setInode]
        split
        · exact .inr (.inr rfl)
        next type =>
          refine ⟨?_, positive, Bool.eq_false_iff.mpr idle, current ▸ type⟩
          unfold lockedEntry
          rw [current]
          unfold setSlot
          rw [update_idem]
          rfl

theorem Owned.settable_locked (owned : fs.Owned) (referenced : 0 < (fs.icache ip).ref) :
    Settable fs ip (fs.lockedEntry ip) (fs.icache ip).inum where
  before _ := rfl
  inum _ := ⟨rfl, owned.inums ip referenced⟩
  alone := owned.alone referenced
  copy _ _ _ := by
    by_cases live : fs.Live ip
    · exact .inl ⟨live, cur_of_live owned.unique live⟩
    · refine .inr (cur_of_not_live ?_)
      intro jp jpLive number
      exact live (owned.unique jp ip jpLive.ref_pos referenced number ▸ jpLive)

theorem live_locked (referenced : 0 < (fs.icache ip).ref)
    (type : (fs.cur (fs.icache ip).inum).type ≠ 0) :
    (fs.setSlot ip (fs.lockedEntry ip)).Live ip := by
  unfold Live
  rw [setSlot_icache_self]
  exact ⟨referenced, rfl, type⟩

theorem Owned.alike_locked (owned : fs.Owned) (referenced : 0 < (fs.icache ip).ref)
    (type : (fs.cur (fs.icache ip).inum).type ≠ 0) :
    Alike fs (fs.setSlot ip (fs.lockedEntry ip)) := by
  refine (owned.settable_locked referenced).alike owned ?_
  intro live
  exact ⟨live_locked referenced type, cur_of_live owned.unique live⟩

end Settled

end Fs

end Xv6
