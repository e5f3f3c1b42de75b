import Xv6.Fs.Directory

/-!
# Working on one inode

The functions that work on a locked inode read and set its entry of the inode cache and no
other.  So they can be run with any other content of the rest of the cache, in particular
with an empty one: a reference to an inode that does not exist does them no harm.
-/

open Function (update update_eq_self update_idem update_of_ne update_self)

namespace Xv6

open Exec

def Fs.withCache (fs : Fs) (cache : Slot → Inode) : Fs := { fs with icache := cache }

/-- The computation uses no entry of the cache but this one. -/
def Confined (ip : Slot) {α : Type} (computation : FsM α) : Prop :=
  ∀ (fs : Fs) (cache : Slot → Inode), cache ip = fs.icache ip →
    computation (fs.withCache cache) = match computation fs with
      | .ok (value, after) =>
        .ok (value, after.withCache (update cache ip (after.icache ip)))
      | .error stop => .error stop

section Rules

variable {ip : Slot} {α β : Type}

theorem withCache_update {fs : Fs} {cache : Slot → Inode} (agree : cache ip = fs.icache ip) :
    fs.withCache (update cache ip (fs.icache ip)) = fs.withCache cache := by
  rw [← agree, update_eq_self]

theorem Confined.pure (value : α) : Confined ip (pure value) := by
  intro fs cache agree
  change Except.ok (value, fs.withCache cache) = .ok (value, _)
  rw [withCache_update agree]

theorem Confined.panic (message : Panic) : Confined ip (panic message : FsM α) := fun _ _ _ => rfl

theorem Confined.bind {first : FsM β} {rest : β → FsM α} (confined : Confined ip first)
    (continues : ∀ value, Confined ip (rest value)) : Confined ip (first >>= rest) := by
  intro fs cache agree
  rw [bind_apply, bind_apply, confined fs cache agree]
  cases first fs with
  | error stop => rfl
  | ok result =>
    obtain ⟨value, mid⟩ := result
    dsimp only
    have agree' : update cache ip (mid.icache ip) ip = mid.icache ip :=
      update_self ..
    rw [continues value mid _ agree']
    cases rest value mid with
    | error stop => rfl
    | ok result => simp only [update_idem]

theorem Confined.ite {condition : Prop} [Decidable condition] {yes no : FsM α}
    (first : Confined ip yes) (second : Confined ip no) :
    Confined ip (if condition then yes else no) := by
  split
  · exact first
  · exact second

theorem Confined.get {read : Fs → α}
    (same : ∀ (fs : Fs) cache, cache ip = fs.icache ip → read (fs.withCache cache) = read fs) :
    Confined ip (do let fs ← Exec.get; return read fs) := by
  intro fs cache agree
  change Except.ok (read (fs.withCache cache), fs.withCache cache) = .ok (read fs, _)
  rw [same fs cache agree, withCache_update agree]

theorem Confined.bread (b : Nat) : Confined ip (bread b) := Confined.get fun _ _ _ => rfl

theorem Confined.getSb : Confined ip getSb := Confined.get fun _ _ _ => rfl

theorem Confined.getInode : Confined ip (getInode ip) := Confined.get fun _ _ agree => agree

theorem Confined.logWrite (b : Nat) (data : Block) : Confined ip (logWrite b data) := by
  intro fs cache agree
  change Except.ok ((), _) = .ok ((), _)
  rw [← withCache_update agree]
  rfl

theorem Confined.setInode (inode : Inode) : Confined ip (setInode ip inode) := by
  intro fs cache agree
  change Except.ok ((), _) = .ok ((), _)
  simp only [Fs.withCache, update_self]

end Rules

/-! ## The functions -/

section Functions

variable {ip : Slot}

theorem confined_balloc : Confined ip balloc := by
  have loop : ∀ bs, Confined ip (ballocLoop bs) := by
    intro bs
    induction bs with
    | nil => exact .panic _
    | cons b rest ih =>
      unfold ballocLoop
      refine .bind .getSb fun sb => .bind (.bread _) fun bp => ?_
      split
      · exact .bind (.logWrite _ _) fun _ => .bind (.logWrite _ _) fun _ => .pure _
      · exact ih
  exact .bind .getSb fun sb => loop _

theorem confined_bmapAddr (k : Nat) : Confined ip (bmapAddr ip k) :=
  .bind .getInode fun _ => .ite
    (.bind confined_balloc fun _ => .bind (.setInode _) fun _ => .pure _) (.pure _)

theorem confined_bmap (bn : Nat) : Confined ip (bmap ip bn) :=
  .ite (confined_bmapAddr bn) (.ite
    (.bind (confined_bmapAddr NDIRECT) fun _ => .bind (.bread _) fun _ => .ite
      (.bind confined_balloc fun _ => .bind (.logWrite _ _) fun _ => .pure _) (.pure _))
    (.panic _))

theorem confined_iupdate : Confined ip (iupdate ip) :=
  .bind .getInode fun _ => .bind .getSb fun _ => .bind (.bread _) fun _ => .logWrite _ _

theorem confined_readiLoop (fuel n off : Nat) : Confined ip (readiLoop ip fuel n off) := by
  induction fuel generalizing n off with
  | zero => exact .pure _
  | succ fuel ih =>
    exact .ite (.pure _) (.bind (confined_bmap _) fun _ => .bind (.bread _) fun _ =>
      .bind (ih _ _) fun _ => .pure _)

theorem confined_writeiLoop (fuel : Nat) (src : List UInt8) (off : Nat) :
    Confined ip (writeiLoop ip fuel src off) := by
  induction fuel generalizing src off with
  | zero => exact .pure _
  | succ fuel ih =>
    exact .ite (.pure _) (.bind (confined_bmap _) fun _ => .bind (.bread _) fun _ =>
      .bind (.logWrite _ _) fun _ => ih _ _)

variable (devsw : Devsw)

theorem confined_readi (off n : Nat) : Confined ip (readi devsw ip off n) :=
  .bind .getInode fun _ => .ite (.ite (.pure _) (.pure _)) (.ite (.pure _)
    (.bind (confined_readiLoop _ _ _) fun _ => .pure _))

theorem confined_writei (src : List UInt8) (off : Nat) : Confined ip (writei devsw ip src off) :=
  .bind .getInode fun _ => .ite (.ite (.pure _) (.pure _)) (.ite (.pure _) (.ite (.pure _)
    (.bind (confined_writeiLoop _ _ _) fun _ => .bind .getInode fun _ => .ite
      (.bind (.setInode _) fun _ => .bind confined_iupdate fun _ => .pure _) (.pure _))))

end Functions

/-! ## An otherwise empty cache -/

def Inode.blank : Inode where
  inum := 0
  ref := 0
  busy := false
  valid := false
  copy := Dinode.zeroed 0

/-- The file system as the holder of an inode sees it, with nothing else in the cache. -/
def Fs.alone (fs : Fs) (ip : Slot) : Fs :=
  fs.withCache (update (fun _ => Inode.blank) ip (fs.icache ip))

section Alone

variable {fs after : Fs} {ip jp : Slot}

@[simp]
theorem alone_icache_self : (fs.alone ip).icache ip = fs.icache ip := by
  simp [Fs.alone, Fs.withCache]

theorem alone_icache_ne (other : jp ≠ ip) : (fs.alone ip).icache jp = Inode.blank := by
  simp [Fs.alone, Fs.withCache, other]

theorem eq_of_alone (same : after.alone ip = fs.alone ip)
    (others : ∀ jp, jp ≠ ip → after.icache jp = fs.icache jp) : after = fs := by
  have disk : (after.alone ip).disk = (fs.alone ip).disk := by rw [same]
  have sb : (after.alone ip).sb = (fs.alone ip).sb := by rw [same]
  have logged : (after.alone ip).logged = (fs.alone ip).logged := by rw [same]
  have icache : after.icache = fs.icache := by
    funext jp
    by_cases here : jp = ip
    · have entry := congrArg (fun fs : Fs => fs.icache ip) same
      simpa [here] using entry
    · exact others jp here
  cases after
  cases fs
  dsimp only [Fs.alone, Fs.withCache] at disk sb logged icache
  rw [disk, sb, logged, icache]

theorem Confined.ensures {α : Type} {computation : FsM α} {good : α → Fs → Prop}
    {bad : Stop → Prop} (confined : Confined ip computation)
    (ensures : computation.Ensures (fs.alone ip) good bad) :
    computation.Ensures fs (fun value after => good value (after.alone ip) ∧
      ∀ jp, jp ≠ ip → after.icache jp = fs.icache jp) bad := by
  have own : computation fs = _ := confined fs fs.icache rfl
  unfold Exec.Ensures at ensures ⊢
  rw [Fs.alone, confined fs _ (update_self ..)] at ensures
  cases result : computation fs with
  | error stop =>
    rw [result] at ensures
    exact ensures
  | ok returned =>
    obtain ⟨value, after⟩ := returned
    rw [result] at ensures own
    dsimp only at ensures own ⊢
    refine ⟨?_, fun jp other => ?_⟩
    · rwa [update_idem] at ensures
    · have same := congrArg Prod.snd (Except.ok.inj own)
      have entry := congrArg (fun fs : Fs => fs.icache jp) same
      dsimp only [Fs.withCache] at entry
      rwa [update_of_ne other] at entry

end Alone

end Xv6
