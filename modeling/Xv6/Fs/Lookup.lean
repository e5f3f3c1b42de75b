import Xv6.Fs.Directory

/-!
# Looking up a name

What `dirlookup` returns, in terms of the entries of the directory.  An entry
lies in one block, so reading it touches one block of the directory; if that
block is a hole, `bmap` takes a free block for it, and stops if there is none.
-/

namespace Xv6

open Exec Fs

def Fs.entry (fs : Fs) (i j : Nat) : Dirent :=
  Dirent.decode ((List.range DESIZE).map fun k => fs.byte i (DESIZE * j + k))

def Fs.Room (fs : Fs) : Prop := ∃ b < fs.sb.size, fs.used b = false

def Fs.HasEntry (fs : Fs) (i j : Nat) : Prop := fs.addr i (blockPos (DESIZE * j / BSIZE)) ≠ 0

/-- The first of some entries that is in use and has the name. -/
def seek (entry : Nat → Dirent) (name : List UInt8) : List Nat → Option (Nat × Nat)
  | [] => none
  | j :: rest =>
    if (entry j).inum = 0 then seek entry name rest
    else if namecmp name (entry j).name then some ((entry j).inum, DESIZE * j)
    else seek entry name rest

/-! ## Names -/

theorem cname_padded {name : List UInt8} (noNul : 0 ∉ name) (count : Nat) :
    Dirent.cname (name ++ List.replicate count 0) = name := by
  have visible : ∀ c ∈ name, decide (c ≠ 0) = true := by
    intro c among
    exact decide_eq_true fun zero => noNul (zero ▸ among)
  rw [Dirent.cname, List.takeWhile_append_of_pos visible]
  cases count with
  | zero => exact List.append_nil name
  | succ count => simp [List.replicate_succ]

theorem Dirent.decode_encode {inum : Nat} {name : List UInt8} (fits : inum < 2 ^ 16)
    (noNul : 0 ∉ name) : decode (encode ⟨inum, name⟩) = ⟨inum, name.take DIRSIZ⟩ := by
  have length : (name.take DIRSIZ ++
      List.replicate (DIRSIZ - (name.take DIRSIZ).length) (0 : UInt8)).length = DIRSIZ := by
    rw [List.length_append, List.length_replicate]
    exact Nat.add_sub_of_le (List.length_take_le _ _)
  have short : 0 ∉ name.take DIRSIZ := fun among => noNul (List.mem_of_mem_take among)
  unfold decode encode
  rw [Bytes.field_toLE fits, List.drop_left' (Bytes.length_toLE 2 inum),
    List.take_of_length_le length.le, cname_padded short]

section Seek

variable {entry : Nat → Dirent} {name : List UInt8} {js : List Nat}

theorem seek_eq_none
    (absent : ∀ j ∈ js, (entry j).inum = 0 ∨ namecmp name (entry j).name = false) :
    seek entry name js = none := by
  induction js with
  | nil => rfl
  | cons j rest ih =>
    rw [List.forall_mem_cons] at absent
    rw [seek, ih absent.2]
    split
    · rfl
    next used =>
      rw [absent.1.resolve_left used, if_neg Bool.false_ne_true]

theorem seek_eq_some {j : Nat} (among : j ∈ js) (used : (entry j).inum ≠ 0)
    (same : namecmp name (entry j).name = true)
    (unique : ∀ other ∈ js, namecmp name (entry other).name = true → other = j) :
    seek entry name js = some ((entry j).inum, DESIZE * j) := by
  induction js with
  | nil => cases among
  | cons other rest ih =>
    rw [List.forall_mem_cons] at unique
    rw [seek]
    by_cases first : other = j
    · rw [first, if_neg used, if_pos same]
    · have later := ih
        ((List.mem_cons.mp among).resolve_left (Ne.symm first)) unique.2
      rw [later, if_neg (fun matching => first (unique.1 matching)), ite_self]

end Seek

/-! ## Blocks -/

section Blocks

variable {fs : Fs} {ip : Slot}

theorem bmapAddr_room (k : Nat) :
    (bmapAddr ip k).Ensures fs (fun _ _ => (fs.icache ip).copy.addr k = 0 → fs.Room)
      (fun _ => ¬fs.Room) := by
  unfold bmapAddr
  simp only [ensures_bind, ensures_getInode]
  split
  · refine (balloc_ensures fs).bind ?_ ?_
    · rintro b after ⟨bound, free, rfl⟩
      exact fun _ => ⟨b, bound, free⟩
    · rintro stop ⟨_, marked⟩ ⟨b, bound, free⟩
      exact Bool.false_ne_true (free.symm.trans (marked b bound))
  next present =>
    exact fun empty => absurd empty present

theorem bmap_room (owned : fs.Owned) (live : fs.Live ip) {bn : Nat} (direct : bn < NDIRECT) :
    (bmap ip bn).Ensures fs
      (fun _ _ => fs.addr (fs.icache ip).inum (blockPos bn) = 0 → fs.Room)
      (fun _ => ¬fs.Room) := by
  rw [blockPos, if_pos direct, owned.addr_direct live direct.le, bmap, if_pos direct]
  exact bmapAddr_room bn

theorem readiLoop_block (owned : fs.Owned) (live : fs.Live ip) {fuel n off : Nat}
    (enough : n ≤ fuel) (some : 0 < n) (single : chunk off n = n) (direct : off / BSIZE < NDIRECT) :
    (readiLoop ip fuel n off).Ensures fs
      (fun bytes after => Fills fs after ip ∧
        bytes = (List.range n).map (fun k => fs.byte (fs.icache ip).inum (off + k)) ∧
        after.addr (fs.icache ip).inum (blockPos (off / BSIZE)) ≠ 0 ∧
        (fs.addr (fs.icache ip).inum (blockPos (off / BSIZE)) ≠ 0 → after = fs) ∧
        (fs.addr (fs.icache ip).inum (blockPos (off / BSIZE)) = 0 → fs.Room))
      (fun stop => stop = .panic .outOfBlocks ∧
        fs.addr (fs.icache ip).inum (blockPos (off / BSIZE)) = 0 ∧ ¬fs.Room) := by
  have far : off / BSIZE < MAXFILE := direct.trans_le (Nat.le_add_right _ _)
  cases fuel with
  | zero => omega
  | succ fuel =>
    unfold readiLoop
    rw [if_neg some.ne']
    refine ((bmap_ensures owned live far).and (bmap_room owned live direct)).bind ?_
      (fun _ both => ⟨both.1.1, both.1.2, both.2⟩)
    rintro b after ⟨mapped, room⟩
    have length : min n (BSIZE - off % BSIZE) = n := single
    have bytes := getBytes_eq_byte (n := n) mapped.result mapped.positive
    rw [single] at bytes
    simp only [ensures_bind, ensures_bread, length, Nat.sub_self]
    have stop : readiLoop ip fuel 0 (off + n) = pure [] := by
      cases fuel <;> rfl
    rw [stop, ensures_pure, ensures_pure, List.append_nil, bytes]
    refine ⟨mapped.fills, ?_, mapped.result.trans_ne mapped.positive, mapped.same, room⟩
    simp only [mapped.fills.byte]

end Blocks

/-! ## Entries -/

section Entries

variable (devsw : Devsw) {fs : Fs} {dp : Slot}

/-- The inode is a directory whose blocks are all direct, with `count` entries. -/
structure Fs.Folder (fs : Fs) (dp : Slot) (count : Nat) : Prop where
  owned : fs.Owned
  live : fs.Live dp
  type : (fs.icache dp).copy.type = T_DIR
  size : (fs.icache dp).copy.size = DESIZE * count
  short : DESIZE * count ≤ NDIRECT * BSIZE

theorem Fs.Folder.fills {after : Fs} {count : Nat} (folder : fs.Folder dp count)
    (fills : Fills fs after dp) : after.Folder dp count := by
  have copy := fills.copy
  refine ⟨fills.owned, fills.live folder.live, ?_, ?_, folder.short⟩
  · rw [copy]
    exact folder.type
  · rw [copy]
    exact folder.size

theorem entry_fills {after : Fs} (fills : Fills fs after dp) (i j : Nat) :
    after.entry i j = fs.entry i j := by
  unfold Fs.entry
  simp only [fills.byte]

theorem readDirent_ensures {count j : Nat} (message : Panic) (folder : fs.Folder dp count)
    (inside : j < count) :
    (readDirent devsw message dp (DESIZE * j)).Ensures fs
      (fun de after => Fills fs after dp ∧ de = fs.entry (fs.icache dp).inum j ∧
        after.HasEntry (fs.icache dp).inum j ∧
        (fs.HasEntry (fs.icache dp).inum j → after = fs) ∧
        (¬fs.HasEntry (fs.icache dp).inum j → fs.Room))
      (fun stop => stop = .panic .outOfBlocks ∧ ¬fs.HasEntry (fs.icache dp).inum j ∧ ¬fs.Room) := by
  have within : DESIZE * j + DESIZE ≤ DESIZE * count := by
    rw [← Nat.mul_succ]
    exact Nat.mul_le_mul_left _ inside
  have short := folder.short
  have size := folder.size
  have single : chunk (DESIZE * j) DESIZE = DESIZE := by
    simp only [chunk, DESIZE, DIRSIZ, BSIZE]
    omega
  have direct : DESIZE * j / BSIZE < NDIRECT := by
    simp only [DESIZE, DIRSIZ, BSIZE, NDIRECT] at within short ⊢
    omega
  unfold readDirent readi
  simp only [ensures_bind, ensures_getInode]
  rw [folder.type, if_neg (by decide), size, if_neg, if_neg (Nat.not_lt.mpr within)]
  · simp only [ensures_bind]
    refine (readiLoop_block folder.owned folder.live le_rfl (by decide) single direct).mono ?_ ?_
    · rintro bytes after ⟨fills, rfl, later, same, room⟩
      rw [ensures_pure]
      dsimp only
      rw [if_pos (by simp)]
      exact ⟨fills, rfl, later, same, fun missing => room (not_not.mp missing)⟩
    · rintro stop ⟨rfl, missing, full⟩
      exact ⟨rfl, not_not.mpr missing, full⟩
  · simp only [DESIZE, DIRSIZ, BSIZE, NDIRECT] at within short ⊢
    omega

theorem dirlookupLoop_ensures {count : Nat} (name : List UInt8) (folder : fs.Folder dp count)
    {js : List Nat} (inside : ∀ j ∈ js, j < count)
    (present : ∀ j ∈ js, fs.HasEntry (fs.icache dp).inum j) :
    (dirlookupLoop devsw dp name (js.map (DESIZE * ·))).Ensures fs
      (fun result after => result = seek (fs.entry (fs.icache dp).inum) name js ∧ after = fs)
      (fun _ => False) := by
  induction js with
  | nil => exact ⟨rfl, rfl⟩
  | cons j rest ih =>
    rw [List.forall_mem_cons] at inside present
    have later := ih inside.2 present.2
    rw [List.map_cons]
    unfold dirlookupLoop seek
    refine (readDirent_ensures devsw .dirlinkRead folder inside.1).bind ?_
      (fun _ failed => failed.2.1 present.1)
    rintro de after ⟨_, rfl, _, same, _⟩
    rw [same present.1]
    split
    · exact later
    split
    · exact ⟨rfl, rfl⟩
    · exact later

theorem dirlookupLoop_append (name : List UInt8) {front back : List Nat}
    {good : Option (Nat × Nat) → Fs → Prop} {bad : Stop → Prop}
    (ensures : (dirlookupLoop devsw dp name front).Ensures fs
      (fun result after =>
        result = none ∧ (dirlookupLoop devsw dp name back).Ensures after good bad ∨
          ∃ found, result = some found ∧ good (some found) after) bad) :
    (dirlookupLoop devsw dp name (front ++ back)).Ensures fs good bad := by
  induction front generalizing fs with
  | nil =>
    rcases ensures with ⟨_, next⟩ | ⟨found, absurdity, _⟩
    · exact next
    · exact absurd absurdity (Option.some_ne_none found).symm
  | cons off rest ih =>
    rw [List.cons_append]
    rw [dirlookupLoop, ensures_bind] at ensures ⊢
    refine ensures.mono ?_ (fun _ stops => stops)
    intro de after next
    split at next
    · rw [if_pos (by assumption)]
      exact ih next
    rw [if_neg (by assumption)]
    split at next
    · rw [if_pos (by assumption)]
      rcases next with ⟨absurdity, _⟩ | ⟨found, same, holds⟩
      · exact absurd absurdity (Option.some_ne_none _)
      · rw [same]
        exact holds
    · rw [if_neg (by assumption)]
      exact ih next

theorem dirlookupLoop_unused {count bn : Nat} (name : List UInt8) (folder : fs.Folder dp count)
    {js : List Nat} (inside : ∀ j ∈ js, j < count) (together : ∀ j ∈ js, DESIZE * j / BSIZE = bn)
    (unused : ∀ j ∈ js, (fs.entry (fs.icache dp).inum j).inum = 0) :
    (dirlookupLoop devsw dp name (js.map (DESIZE * ·))).Ensures fs
      (fun result _ => result = none ∧
        (js ≠ [] → fs.addr (fs.icache dp).inum (blockPos bn) = 0 → fs.Room))
      (fun stop => stop = .panic .outOfBlocks ∧
        fs.addr (fs.icache dp).inum (blockPos bn) = 0 ∧ ¬fs.Room) := by
  cases js with
  | nil => exact ⟨rfl, fun some => absurd rfl some⟩
  | cons j rest =>
    rw [List.forall_mem_cons] at inside together unused
    rw [List.map_cons]
    unfold dirlookupLoop
    refine (readDirent_ensures devsw .dirlinkRead folder inside.1).bind ?_ ?_
    · rintro de after ⟨fills, rfl, later, _, room⟩
      rw [if_pos unused.1]
      have inum := fills.inum
      have none : seek (after.entry (after.icache dp).inum) name rest = none := by
        rw [inum, funext (entry_fills fills _)]
        exact seek_eq_none fun other among => .inl (unused.2 other among)
      refine (dirlookupLoop_ensures devsw name (folder.fills fills) inside.2 ?_).mono ?_
        (fun _ never => never.elim)
      · intro other among
        rw [inum, HasEntry, together.2 other among, ← together.1]
        exact later
      · rintro result last ⟨rfl, _⟩
        refine ⟨none, fun _ missing => room fun held => held ?_⟩
        rw [together.1]
        exact missing
    · rintro stop ⟨rfl, missing, full⟩
      rw [HasEntry, together.1, not_not] at missing
      exact ⟨rfl, missing, full⟩

end Entries

/-! ## The inode of an entry -/

section Inodes

variable {fs : Fs} {ip : Slot}

theorem iget_returns {inum : Nat} (unused : ∃ ip, (fs.icache ip).ref = 0) :
    (iget inum).Ensures fs (Got fs inum) (fun _ => False) := by
  have free : (iget inum).Ensures fs (fun _ _ => True) (fun _ => ∀ ip, (fs.icache ip).ref ≠ 0) := by
    unfold iget
    simp only [ensures_bind, ensures_get]
    split
    · trivial
    split
    · trivial
    next search =>
      intro ip
      have fails := List.find?_eq_none.mp search ip (List.mem_finRange ip)
      simpa using fails
  obtain ⟨ip, zero⟩ := unused
  exact ((iget_ensures fs inum).and free).mono (fun _ _ both => both.1)
    (fun _ both => both.2 ip zero)

theorem ilock_returns (owned : fs.Owned) (settled : fs.Settled)
    (referenced : 0 < (fs.icache ip).ref) (idle : (fs.icache ip).busy = false)
    (type : (fs.cur (fs.icache ip).inum).type ≠ 0) :
    (ilock ip).Ensures fs (fun _ after => after = fs.setSlot ip (fs.lockedEntry ip))
      (fun _ => False) := by
  have stops : (ilock ip).Ensures fs (fun _ _ => True)
      (fun _ => ¬fs.Live ip ∧ (fs.dinode (fs.icache ip).inum).type = 0) := by
    unfold ilock ilockAcquire ilockLoad
    simp only [ensures_bind, ensures_getInode]
    rw [if_neg (by omega), if_neg (by rw [idle]; exact Bool.false_ne_true)]
    simp only [ensures_setInode, setSlot_icache_self]
    split
    · trivial
    next invalid =>
      simp only [ensures_bind, ensures_getSb, ensures_bread, ensures_setInode]
      split
      next free =>
        exact ⟨fun live => invalid live.2.1, free⟩
      · trivial
  refine ((ilock_ensures owned settled).and stops).mono (fun _ _ both => both.1.1) ?_
  rintro _ ⟨_, dead, free⟩
  refine type ?_
  rw [cur_of_not_live, free]
  intro jp live number
  exact dead (owned.unique jp ip live.ref_pos referenced number ▸ live)

end Inodes

end Xv6
