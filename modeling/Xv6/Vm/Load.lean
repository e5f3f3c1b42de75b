import Xv6.Vm.Elf
import Xv6.Vm.Overlay

/-!
# Loading a program

The loading phase of `exec` on a file with arbitrary content.  The inode stays
locked, so the file does not change.  The loop over the program headers calls
`allocuvm` and `loaduvm`; neither checks the addresses of a header against each
other, and `loaduvm` does not look at the flags of the entries it goes through.

`Executable.Fits` says for which files and free pages this stays within the new
image; it is exact.
-/

namespace Xv6.Vm

open Exec

/-! ## The loading phase -/

section Load

variable (layout : Layout) (file : Executable)

def loaduvmLoop (pgdir : Nat) (va offset sz : Word) : (fuel : Nat) → (i : Word) → VmM Bool
  | 0, _ => Exec.fail .diverges
  | fuel + 1, i => do
    if i < sz then
      match ← walkpgdir pgdir (va + i) false with
      | none => Exec.fail .noAddress
      | some (pgtab, j) =>
        let m ← Exec.get
        let n := if sz - i < BitVec.ofNat 32 PGSIZE then sz - i else BitVec.ofNat 32 PGSIZE
        match file.readi (offset + i) n with
        | none => return false
        | some bytes =>
          storeBytes layout (frame (m.page pgtab j)) 0 bytes
          if bytes.length = n.toNat then
            loaduvmLoop pgdir va offset sz fuel (i + BitVec.ofNat 32 PGSIZE)
          else return false
    else return true

def loaduvm (pgdir : Nat) (va offset sz : Word) : VmM Bool :=
  if va.toNat % PGSIZE ≠ 0 then Exec.fail .unaligned
  else loaduvmLoop layout file pgdir va offset sz (2 ^ 20) 0

/-- The body of the loop over the program headers: the new size, unless `exec` goes to `bad`. -/
def loadSegment (pgdir : Nat) (sz : Word) (ph : Proghdr) : VmM (Option Word) := do
  if ph.type ≠ ELF_PROG_LOAD then return some sz
  else if ph.memsz < ph.filesz then return none
  else
    let sz ← allocuvm layout pgdir sz (ph.vaddr + ph.memsz)
    if sz = 0 then return none
    else if ← loaduvm layout file pgdir ph.vaddr ph.off ph.filesz then return some sz
    else return none

def loadLoop (pgdir : Nat) : (count : Nat) → (off sz : Word) → VmM (Option Word)
  | 0, _, sz => return some sz
  | count + 1, off, sz => do
    match file.proghdr off with
    | none => return none
    | some ph =>
      match ← loadSegment layout file pgdir sz ph with
      | none => return none
      | some sz => loadLoop pgdir count (off + 32) sz

/-- What the loading phase leaves for the rest of `exec`. -/
structure Loaded where
  pgdir : Nat
  sz : Word
  entry : Word

/-- No page has been grown, lost or written yet. -/
def Memory.fresh (m : Memory) : Memory := { m with grown := [], lost := [], stray := [] }

def load : VmM (Option Loaded) := do
  Exec.modify Memory.fresh
  match file.elf with
  | none => return none
  | some elf =>
    match ← setupkvm layout with
    | none => return none
    | some pgdir =>
      match ← loadLoop layout file pgdir elf.phnum elf.phoff 0 with
      | none =>
        freevm layout pgdir
        return none
      | some sz => return some ⟨pgdir, sz, elf.entry⟩

end Load

/-! ## When loading stays within the image -/

/-- The virtual page `n` has a page table when the image has `k` pages. -/
def Walkable (k : Nat) (lost : List Nat) (n : Nat) : Prop :=
  if n < KERNPAGE then ∃ n', n' < k ∧ n' ∉ lost ∧ n' / 1024 = n / 1024 else kernelFrame n ≠ none

/-- The virtual page `n` is a page of the image, under its own address or in the direct
mapping of the kernel. -/
def Inside (k : Nat) (lost grown : List Nat) (n : Nat) : Prop :=
  if n < KERNPAGE then n < k ∧ n ∉ lost else ∃ p ∈ grown, kernelFrame n = some p

/-- `loaduvm` comes to page `j` of the segment: it reads a page at a time and stops when
the file ends. -/
def Proghdr.Reaches (file : Executable) (ph : Proghdr) (j : Nat) : Prop :=
  j * 4096 < ph.filesz.toNat ∧ (j = 0 ∨ ph.off.toNat + j * 4096 ≤ file.content.length)

def Proghdr.Fills (file : Executable) (ph : Proghdr) (j : Nat) : Prop :=
  ph.off.toNat + j * 4096 < file.content.length

def Proghdr.PageFits (file : Executable) (ph : Proghdr) (k : Nat)
    (lost grown : List Nat) (j : Nat) : Prop :=
  ph.Reaches file j → Walkable k lost (pageNumber (ph.vaddr + addr j)) ∧
    (ph.Fills file j → Inside k lost grown (pageNumber (ph.vaddr + addr j)))

section Condition

variable (file : Executable) (ph : Proghdr)

def pageCount (size : Nat) : Nat := (size + 4095) / 4096

/-- The size of the image when the segments have been loaded: the largest of their ends, which
are sums of words. -/
def extent (size : Nat) (segments : List Proghdr) : Nat :=
  segments.foldl (fun size ph => max size (ph.vaddr + ph.memsz).toNat) size

/-- The bytes that the file has for the segment. -/
def Proghdr.stored : Nat := min ph.filesz.toNat (file.content.length - ph.off.toNat)

/-- `allocuvm` makes room for the segment in an image of `size` bytes. -/
structure Proghdr.Placed (size available : Nat) : Prop where
  ordered : ph.filesz.toNat ≤ ph.memsz.toNat
  below : (ph.vaddr + ph.memsz).toNat < KERNBASE
  nonempty : 0 < size
  room : Affords 0 (pageCount size) available

/-- The segment is loaded, all of it. -/
def Proghdr.Loads (size available : Nat) : Prop :=
  ph.Placed size available ∧ ph.stored file = ph.filesz.toNat

/-- The pages of an image of `size` bytes, without the last one if it has got no page table. -/
def mappedPages (size available : Nat) : Nat :=
  if growth 0 (pageCount size) ≤ available then pageCount size else pageCount size - 1

/-- Page `n` has a page table when the first `k` pages are mapped. -/
def HasTable (k n : Nat) : Prop :=
  if n < KERNPAGE then n / 1024 * 1024 < k else kernelFrame n ≠ none

/-- The pages from `first` on belong to an image of `size` bytes.  In the kernel half they do
if they happen to be the direct mapping of pages that the image has got from the free list. -/
def Belong (free : List Nat) (size first count : Nat) : Prop :=
  if first < KERNPAGE then count = 0 ∨ first + count ≤ mappedPages size free.length
  else ∀ j < count, ∃ n < pageCount size, ∃ p, free[growth 0 n]? = some p ∧
    kernelFrame (first + j) = some p

/-- The segment can be loaded into an image of `size` bytes whose pages are taken from `free`. -/
structure Proghdr.Fits (size : Nat) (free : List Nat) : Prop where
  aligned : ph.vaddr.toNat % PGSIZE = 0
  inside : Belong free size (pageNumber ph.vaddr) (pageCount (ph.stored file))
  /-- `loaduvm` looks at one page more if the file ends at the end of a page -/
  ended : ph.stored file < ph.filesz.toNat → ph.stored file % PGSIZE = 0 →
    HasTable (mappedPages size free.length) (pageNumber ph.vaddr + ph.stored file / PGSIZE)

/-- Every segment is loaded into an image of `size` bytes. -/
def SegmentsLoad (size available : Nat) (segments : List Proghdr) : Prop :=
  ∀ loaded ph rest, segments = loaded ++ ph :: rest →
    ph.Loads file (extent size (loaded ++ [ph])) available

/-- Every segment for which there is room when the segments before it are loaded fits. -/
def SegmentsFit (size : Nat) (free : List Nat) (segments : List Proghdr) : Prop :=
  ∀ loaded ph rest, segments = loaded ++ ph :: rest →
    SegmentsLoad file size free.length loaded →
    ph.Placed (extent size (loaded ++ [ph])) free.length →
    ph.Fits file (extent size (loaded ++ [ph])) free

/-- The segments fit in what `setupkvm` leaves of the free pages. -/
def Executable.Fits (free : List Nat) : Prop :=
  65 ≤ free.length → SegmentsFit file 0 (free.drop 65) file.segments

/-- `exec` loads the file: every header can be read and every segment is loaded. -/
def Executable.Loads (available : Nat) : Prop :=
  65 ≤ available ∧ (∃ elf, file.elf = some elf ∧
    (file.headers elf.phnum elf.phoff).length = elf.phnum) ∧
  SegmentsLoad file 0 (available - 65) file.segments

end Condition

section Segments

variable {file : Executable} {ph : Proghdr} {size available : Nat} {free : List Nat}
  {segments : List Proghdr}

theorem segmentsLoad_cons : SegmentsLoad file size available (ph :: segments) ↔
    ph.Loads file (max size (ph.vaddr + ph.memsz).toNat) available ∧
      SegmentsLoad file (max size (ph.vaddr + ph.memsz).toNat) available segments := by
  refine ⟨fun all => ⟨all [] ph segments rfl, fun loaded ph' rest split => ?_⟩, ?_⟩
  · exact all (ph :: loaded) ph' rest (by rw [split, List.cons_append])
  · rintro ⟨first, others⟩ loaded ph' rest split
    rcases List.cons_eq_append_iff.mp split with ⟨rfl, same⟩ | ⟨loaded', rfl, same⟩
    · cases same
      exact first
    · exact others loaded' ph' rest same

theorem segmentsFit_cons : SegmentsFit file size free (ph :: segments) ↔
    (ph.Placed (max size (ph.vaddr + ph.memsz).toNat) free.length →
      ph.Fits file (max size (ph.vaddr + ph.memsz).toNat) free) ∧
    (ph.Loads file (max size (ph.vaddr + ph.memsz).toNat) free.length →
      SegmentsFit file (max size (ph.vaddr + ph.memsz).toNat) free segments) := by
  refine ⟨fun all => ⟨all [] ph segments rfl ?_, fun first loaded ph' rest split before => ?_⟩, ?_⟩
  · intro loaded ph' rest split
    cases loaded <;> cases split
  · exact all (ph :: loaded) ph' rest (by rw [split, List.cons_append])
      (segmentsLoad_cons.mpr ⟨first, before⟩)
  · rintro ⟨first, others⟩ loaded ph' rest split before
    rcases List.cons_eq_append_iff.mp split with ⟨rfl, same⟩ | ⟨loaded', rfl, same⟩
    · cases same
      exact first
    · obtain ⟨loads, before'⟩ := segmentsLoad_cons.mp before
      exact others loads loaded' ph' rest same before'

theorem segmentsLoad_nil : SegmentsLoad file size available [] := by
  intro loaded ph rest split
  cases loaded <;> cases split

theorem segmentsFit_nil : SegmentsFit file size free [] := by
  intro loaded ph rest split
  cases loaded <;> cases split

end Segments

/-! ## A stray write is not undone -/

/-- A byte has been written outside the image. -/
def Strayed (m : Memory) : Prop := m.stray ≠ []

section Strayed

variable {layout : Layout} {file : Executable} {pgdir : Nat}

theorem setWord_keeps (page i : Nat) (word : Word) : Keeps Strayed (setWord page i word) :=
  Keeps.modify fun _ strayed => strayed

theorem setPage_keeps (page : Nat) (content : Page) : Keeps Strayed (setPage page content) :=
  Keeps.modify fun _ strayed => strayed

theorem kalloc_keeps : Keeps Strayed kalloc := by
  refine Keeps.get.bind fun m => ?_
  split
  · exact Keeps.pure none
  · exact Keeps.bind (Keeps.modify fun _ strayed => strayed) fun _ => Keeps.pure _

theorem kfree_keeps (page : Nat) : Keeps Strayed (kfree layout page) := by
  unfold kfree
  split
  · exact Keeps.fail _
  · exact (setPage_keeps _ _).bind
      fun _ => Keeps.get.bind fun _ => (setWord_keeps _ _ _).bind fun _ =>
      Keeps.modify fun _ strayed => strayed

theorem walkpgdir_keeps (va : Word) (alloc : Bool) : Keeps Strayed (walkpgdir pgdir va alloc) := by
  refine Keeps.get.bind fun m => ?_
  split
  · exact Keeps.pure _
  · split
    · exact Keeps.pure _
    · refine kalloc_keeps.bind fun result => ?_
      cases result with
      | none => exact Keeps.pure _
      | some pgtab =>
        exact (setPage_keeps _ _).bind fun _ => (setWord_keeps _ _ _).bind fun _ => Keeps.pure _

theorem mapPage_keeps (perm a pa : Word) : Keeps Strayed (mapPage pgdir perm a pa) := by
  refine (walkpgdir_keeps _ _).bind fun result => ?_
  cases result with
  | none => exact Keeps.pure _
  | some found =>
    refine Keeps.get.bind fun m => ?_
    split
    · exact Keeps.fail _
    · exact (setWord_keeps _ _ _).bind fun _ => Keeps.pure _

theorem mappages_keeps (va size pa perm : Word) :
    Keeps Strayed (mappages pgdir va size pa perm) := by
  have loop : ∀ fuel a pa, Keeps Strayed
      (mappagesLoop pgdir perm (PGROUNDDOWN (va + size - 1)) fuel a pa) := by
    intro fuel
    induction fuel with
    | zero => exact fun _ _ => Keeps.fail _
    | succ fuel ih =>
      intro a pa
      refine (mapPage_keeps _ _ _).bind fun ok => ?_
      split
      · split
        · exact Keeps.pure _
        · exact ih _ _
      · exact Keeps.pure _
  exact loop _ _ _

theorem deallocuvm_keeps (oldsz newsz : Word) :
    Keeps Strayed (deallocuvm layout pgdir oldsz newsz) := by
  have loop : ∀ fuel a, Keeps Strayed (deallocuvmLoop layout pgdir oldsz fuel a) := by
    intro fuel
    induction fuel with
    | zero => exact fun _ => Keeps.fail _
    | succ fuel ih =>
      intro a
      unfold deallocuvmLoop
      split
      · refine (walkpgdir_keeps _ _).bind fun result => ?_
        cases result with
        | none => exact ih _
        | some found =>
          refine Keeps.get.bind fun m => ?_
          split
          · split
            · exact Keeps.fail _
            · exact (kfree_keeps _).bind fun _ => (setWord_keeps _ _ _).bind fun _ =>
                ih _
          · exact ih _
      · exact Keeps.pure _
  unfold deallocuvm
  split
  · exact Keeps.pure _
  · exact (loop _ _).bind fun _ => Keeps.pure _

theorem allocuvm_keeps (oldsz newsz : Word) :
    Keeps Strayed (allocuvm layout pgdir oldsz newsz) := by
  have loop : ∀ fuel a, Keeps Strayed (allocuvmLoop layout pgdir oldsz newsz fuel a) := by
    intro fuel
    induction fuel with
    | zero => exact fun _ => Keeps.fail _
    | succ fuel ih =>
      intro a
      unfold allocuvmLoop
      split
      · refine kalloc_keeps.bind fun result => ?_
        cases result with
        | none => exact (deallocuvm_keeps _ _).bind fun _ => Keeps.pure _
        | some mem =>
          have round : Keeps Strayed (growPage pgdir mem a) :=
            (setPage_keeps _ _).bind fun _ => (mappages_keeps _ _ _ _).bind fun _ =>
              Keeps.modify fun _ strayed => strayed
          exact round.bind fun _ => ih _
      · exact Keeps.pure _
  unfold allocuvm
  split
  · exact Keeps.pure _
  · split
    · exact Keeps.pure _
    · exact loop _ _

theorem freevm_keeps : Keeps Strayed (freevm layout pgdir) := by
  have loop : ∀ indices, Keeps Strayed (freevmLoop layout pgdir indices) := by
    intro indices
    induction indices with
    | nil => exact Keeps.pure _
    | cons i rest ih =>
      refine Keeps.get.bind fun m => ?_
      split
      · exact (kfree_keeps _).bind fun _ => ih
      · exact ih
  unfold freevm
  generalize List.range NPDENTRIES = indices
  exact (deallocuvm_keeps _ _).bind fun _ => (loop _).bind fun _ => kfree_keeps _

theorem storeBytes_keeps (page off : Nat) (bytes : List UInt8) :
    Keeps Strayed (storeBytes layout page off bytes) := by
  unfold storeBytes
  split
  · exact Keeps.pure _
  · split
    · exact Keeps.fail _
    · refine Keeps.modify fun m strayed => ?_
      unfold Strayed at *
      dsimp only
      split
      · exact strayed
      · simp

theorem loaduvmLoop_keeps (va offset sz : Word) (fuel : Nat) (i : Word) :
    Keeps Strayed (loaduvmLoop layout file pgdir va offset sz fuel i) := by
  induction fuel generalizing i with
  | zero => exact Keeps.fail _
  | succ fuel ih =>
    unfold loaduvmLoop
    split
    · refine (walkpgdir_keeps _ _).bind fun result => ?_
      cases result with
      | none => exact Keeps.fail _
      | some found =>
        refine Keeps.get.bind fun m => ?_
        dsimp only
        generalize (if sz - i < BitVec.ofNat 32 PGSIZE then sz - i
          else BitVec.ofNat 32 PGSIZE) = n
        generalize file.readi (offset + i) n = bytes
        cases bytes with
        | none => exact Keeps.pure _
        | some bytes =>
          refine (storeBytes_keeps _ _ _).bind fun _ => ?_
          split
          · exact ih _
          · exact Keeps.pure _
    · exact Keeps.pure _

theorem loaduvm_keeps (va offset sz : Word) :
    Keeps Strayed (loaduvm layout file pgdir va offset sz) := by
  unfold loaduvm
  split
  · exact Keeps.fail _
  · exact loaduvmLoop_keeps _ _ _ _ _

theorem loadSegment_keeps (sz : Word) (ph : Proghdr) :
    Keeps Strayed (loadSegment layout file pgdir sz ph) := by
  unfold loadSegment
  split
  · exact Keeps.pure _
  · split
    · exact Keeps.pure _
    · refine (allocuvm_keeps _ _).bind fun sz => ?_
      split
      · exact Keeps.pure _
      · refine (loaduvm_keeps _ _ _).bind fun ok => ?_
        split <;> exact Keeps.pure _

theorem loadLoop_keeps (count : Nat) (off sz : Word) :
    Keeps Strayed (loadLoop layout file pgdir count off sz) := by
  induction count generalizing off sz with
  | zero => exact Keeps.pure _
  | succ count ih =>
    unfold loadLoop
    cases file.proghdr off with
    | none => exact Keeps.pure _
    | some ph =>
      refine (loadSegment_keeps _ _).bind fun result => ?_
      cases result with
      | none => exact Keeps.pure _
      | some sz => exact ih _ _

end Strayed

/-! ## Soundness of the condition -/

section Image

variable {layout : Layout} {file : Executable} {own : Nat → Prop} {base : Nat → Page} {k : Nat}
  {m : Memory} {d n : Nat} {free : List Nat} {w : Word} {guard : Option Nat}

namespace Image

variable (image : Image layout own base guard k m d free)

include image

theorem walkable_iff (small : n < 2 ^ 20) :
    table m.page d (n / 1024) ≠ none ↔ Walkable k m.lost n := by
  unfold Walkable
  by_cases low : n < KERNPAGE
  · rw [if_pos low]
    unfold KERNPAGE at low
    constructor
    · exact image.tables (by omega)
    · rintro ⟨n', inside, kept, index⟩
      have there := image.covered inside kept
      rwa [Ne, lookup_eq_none, index] at there
  · rw [if_neg low]
    have high : KERNPAGE ≤ n := Nat.le_of_not_lt low
    rw [Ne, ← lookup_eq_none]
    constructor
    · exact fun there gap => there (image.kernel.absent high small gap)
    · intro isMapped absent
      obtain ⟨f, isFrame⟩ := Option.ne_none_iff_exists'.mp isMapped
      obtain ⟨w, found, -⟩ := image.kernel.mapped high small isFrame
      rw [absent] at found
      cases found

theorem inside_iff (small : n < 2 ^ 20) (found : lookup m.page d n = some w) :
    frame w ∈ m.grown ↔ Inside k m.lost m.grown n := by
  unfold Inside
  by_cases low : n < KERNPAGE
  · rw [if_pos low]
    by_cases inside : n < k ∧ n ∉ m.lost
    · obtain ⟨w', found', -, isGrown, -⟩ := image.entry_of_lt inside.1 inside.2
      obtain rfl := Option.some.inj (found.symm.trans found')
      exact iff_of_true isGrown inside
    · have clear : w = 0 := image.entry_of_not low (fun below => by_contra fun kept =>
        inside ⟨below, kept⟩) found
      refine iff_of_false (fun isGrown => ?_) inside
      have positive := image.pos (image.apart isGrown).1
      rw [clear] at positive
      exact absurd positive (by decide)
  · rw [if_neg low]
    have high : KERNPAGE ≤ n := Nat.le_of_not_lt low
    have isMapped : kernelFrame n ≠ none := by
      intro gap
      rw [image.kernel.absent high small gap] at found
      cases found
    obtain ⟨f, isFrame⟩ := Option.ne_none_iff_exists'.mp isMapped
    obtain ⟨w', found', -, -, page⟩ := image.kernel.mapped high small isFrame
    obtain rfl := Option.some.inj (found.symm.trans found')
    rw [isFrame, page]
    simp

omit image in
theorem storeBytes_stray {p off : Nat} {bytes : List UInt8} (nonempty : bytes ≠ [])
    (outside : p ∉ m.grown) :
    (storeBytes layout p off bytes).Ensures m (fun _ m' => Strayed m') (fun _ => True) := by
  unfold storeBytes
  rw [if_neg nonempty]
  split
  · trivial
  · simp [Strayed, outside]

end Image

end Image

section Decides

variable {layout : Layout} {file : Executable} {own : Nat → Prop} {base : Nat → Page} {k j : Nat}
  {m : Memory} {d : Nat} {free : List Nat} {ph : Proghdr}

theorem chunk_toNat {sz : Word} (inside : j * 4096 < sz.toNat) :
    (if sz - addr j < BitVec.ofNat 32 PGSIZE then sz - addr j else BitVec.ofNat 32 PGSIZE).toNat =
      min (sz.toNat - j * 4096) 4096 := by
  have bound := sz.isLt
  have size : (BitVec.ofNat 32 PGSIZE).toNat = 4096 := rfl
  have left : (sz - addr j).toNat = sz.toNat - j * 4096 := by
    rw [BitVec.toNat_sub, toNat_addr (by omega)]
    unfold PGSIZE
    omega
  split
  next less =>
    rw [BitVec.lt_def, left, size] at less
    omega
  next more =>
    rw [BitVec.lt_def, left, size] at more
    omega

theorem loadPage_spec {n off : Nat} {w : Word} {bytes : List UInt8}
    (image : Image layout own base none k m d free) (small : n < 2 ^ 20)
    (found : lookup m.page d n = some w) :
    (storeBytes layout (frame w) off bytes).Ensures m
      (fun _ m' => ((bytes ≠ [] → Inside k m.lost m.grown n) ∧
        Image layout own base none k m' d free ∧ m'.grown = m.grown ∧ m'.lost = m.lost) ∨
          ¬(bytes ≠ [] → Inside k m.lost m.grown n) ∧ Strayed m')
      (fun _ => ¬(bytes ≠ [] → Inside k m.lost m.grown n)) := by
  by_cases nonempty : bytes = []
  · subst nonempty
    exact .inl ⟨by simp, image, rfl, rfl⟩
  · by_cases isGrown : frame w ∈ m.grown
    · refine (image.storeBytes_spec isGrown).mono ?_ (by simp)
      rintro - m' ⟨after, grown, lost, -⟩
      exact .inl ⟨fun _ => (image.inside_iff small found).mp isGrown, after, grown, lost⟩
    · have outside : ¬(bytes ≠ [] → Inside k m.lost m.grown n) := by
        rw [← image.inside_iff small found]
        exact fun implies => isGrown (implies nonempty)
      exact (Image.storeBytes_stray nonempty isGrown).mono
        (fun _ _ strayed => .inr ⟨outside, strayed⟩) fun _ _ => outside

theorem loaduvmLoop_spec (fuel : Nat) (image : Image layout own base none k m d free)
    (reached : j = 0 ∨ ph.off.toNat + min ph.filesz.toNat (j * 4096) ≤ file.content.length)
    (few : j ≤ 18) (enough : 18 < j + fuel) :
    (loaduvmLoop layout file d ph.vaddr ph.off ph.filesz fuel (addr j)).Ensures m
      (fun ok m' => ((∀ j', j ≤ j' → ph.PageFits file k m.lost m.grown j') ∧
        (ok = true ↔ ph.stored file = ph.filesz.toNat) ∧
        Image layout own base none k m' d free ∧ m'.grown = m.grown ∧ m'.lost = m.lost) ∨
          ¬(∀ j', j ≤ j' → ph.PageFits file k m.lost m.grown j') ∧ Strayed m')
      (fun _ => ¬∀ j', j ≤ j' → ph.PageFits file k m.lost m.grown j') := by
  have short := file.length_lt
  induction fuel generalizing m j with
  | zero => omega
  | succ fuel ih =>
    unfold loaduvmLoop
    have before : addr j < ph.filesz ↔ j * 4096 < ph.filesz.toNat := by
      rw [BitVec.lt_def, toNat_addr (by omega)]
    by_cases inside : j * 4096 < ph.filesz.toNat
    · have reach : ph.Reaches file j := ⟨inside, by omega⟩
      have chunk := chunk_toNat inside
      rw [if_pos (before.mpr inside), ensures_bind, ensures_walkpgdir]
      generalize page : pageNumber (ph.vaddr + addr j) = n
      have small : n < 2 ^ 20 := page ▸ pageNumber_lt _
      cases found : table m.page d (n / 1024) with
      | none =>
        intro fits
        have walkable := (fits j le_rfl reach).1
        rw [page, ← image.walkable_iff small] at walkable
        exact walkable found
      | some t =>
        have walkable : Walkable k m.lost n := by
          rw [← image.walkable_iff small, found]
          simp
        simp only [Option.map_some, ensures_bind, ensures_get]
        generalize (if ph.filesz - addr j < BitVec.ofNat 32 PGSIZE then ph.filesz - addr j
          else BitVec.ofNat 32 PGSIZE) = count at chunk ⊢
        have start : (ph.off + addr j).toNat = ph.off.toNat + j * 4096 := by
          have bound := ph.off.isLt
          rw [BitVec.toNat_add, toNat_addr (by omega)]
          unfold PGSIZE
          omega
        rw [Executable.readi_eq, start]
        by_cases beyond : file.content.length < ph.off.toNat + j * 4096 ∨
            2 ^ 32 ≤ ph.off.toNat + j * 4096 + count.toNat
        · -- nothing is read and there is no further page
          rw [if_pos beyond]
          have part : ¬ph.stored file = ph.filesz.toNat := by
            unfold Proghdr.stored
            omega
          refine .inl ⟨fun j' after reach' => ?_, iff_of_false Bool.false_ne_true part, image, rfl,
            rfl⟩
          obtain ⟨-, rest⟩ := reach'
          obtain rfl : j' = j := by omega
          refine ⟨by rwa [page], fun fills => ?_⟩
          unfold Proghdr.Fills at fills
          omega
        · rw [if_neg beyond]
          generalize read : (file.content.drop (ph.off.toNat + j * 4096)).take count.toNat = bytes
          have length : bytes.length =
              min count.toNat (file.content.length - (ph.off.toNat + j * 4096)) := by
            rw [← read, List.length_take, List.length_drop]
          have fills : bytes ≠ [] ↔ ph.Fills file j := by
            unfold Proghdr.Fills
            rw [Ne, ← List.length_eq_zero_iff, length]
            omega
          have here : ph.PageFits file k m.lost m.grown j ↔
              (bytes ≠ [] → Inside k m.lost m.grown n) := by
            unfold Proghdr.PageFits
            rw [page, fills]
            exact ⟨fun fits => (fits reach).2, fun fits _ => ⟨walkable, fits⟩⟩
          simp only [ensures_bind]
          refine (loadPage_spec image small (lookup_of_table found)).mono ?_ ?_
          · rintro - m' (⟨fits, after, grown, lost⟩ | ⟨fails, strayed⟩)
            · rw [← here] at fits
              by_cases complete : bytes.length = count.toNat
              · rw [if_pos complete, addr_succ]
                have all : (∀ j', j ≤ j' → ph.PageFits file k m.lost m.grown j') ↔
                    ∀ j', j + 1 ≤ j' → ph.PageFits file k m'.lost m'.grown j' := by
                  rw [grown, lost]
                  refine ⟨fun fits j' later => fits j' (by omega), fun rest j' later => ?_⟩
                  by_cases same : j' = j
                  · exact same ▸ fits
                  · exact rest j' (by omega)
                have few' : j + 1 ≤ 18 := by omega
                have reached' : j + 1 = 0 ∨
                    ph.off.toNat + min ph.filesz.toNat ((j + 1) * 4096) ≤ file.content.length := by
                  rw [not_or] at beyond
                  clear ih reached before start
                  rw [complete, chunk] at length
                  omega
                have next := ih after reached' few' (by omega)
                rw [← all, grown, lost] at next
                exact next
              · rw [if_neg complete]
                have part : ¬ph.stored file = ph.filesz.toNat := by
                  unfold Proghdr.stored
                  omega
                refine .inl ⟨fun j' later => ?_, iff_of_false Bool.false_ne_true part, after, grown,
                  lost⟩
                by_cases same : j' = j
                · exact same ▸ fits
                · rintro ⟨-, rest⟩
                  omega
            · have never : ¬∀ j', j ≤ j' → ph.PageFits file k m.lost m.grown j' := fun all =>
                fails (here.mp (all j le_rfl))
              have rest : Keeps Strayed (if bytes.length = count.toNat then
                  loaduvmLoop layout file d ph.vaddr ph.off ph.filesz fuel
                    (addr j + BitVec.ofNat 32 PGSIZE)
                  else pure false) := by
                split
                · exact loaduvmLoop_keeps _ _ _ _ _
                · exact Keeps.pure _
              exact (rest m' strayed).mono (fun _ _ strayed => .inr ⟨never, strayed⟩)
                fun _ _ => never
          · exact fun _ fails all => fails (here.mp (all j le_rfl))
    · rw [if_neg (mt before.mp inside)]
      have whole : ph.stored file = ph.filesz.toNat := by
        unfold Proghdr.stored
        omega
      refine .inl ⟨fun j' after => ?_, iff_of_true rfl whole, image, rfl, rfl⟩
      rintro ⟨more, -⟩
      omega

theorem loaduvm_spec (image : Image layout own base none k m d free) :
    (loaduvm layout file d ph.vaddr ph.off ph.filesz).Ensures m
      (fun ok m' => ((ph.vaddr.toNat % PGSIZE = 0 ∧ ∀ j, ph.PageFits file k m.lost m.grown j) ∧
          (ok = true ↔ ph.stored file = ph.filesz.toNat) ∧
          Image layout own base none k m' d free ∧ m'.grown = m.grown ∧ m'.lost = m.lost) ∨
        ¬(ph.vaddr.toNat % PGSIZE = 0 ∧ ∀ j, ph.PageFits file k m.lost m.grown j) ∧ Strayed m')
      (fun _ => ¬(ph.vaddr.toNat % PGSIZE = 0 ∧ ∀ j, ph.PageFits file k m.lost m.grown j)) := by
  unfold loaduvm
  by_cases aligned : ph.vaddr.toNat % PGSIZE = 0
  · rw [if_neg (by simpa using aligned)]
    simp only [aligned, true_and]
    refine (loaduvmLoop_spec (2 ^ 20) image (.inl rfl) (by omega) (by omega)).mono ?_ ?_
    · rintro ok m' (⟨all, outcome⟩ | ⟨fails, strayed⟩)
      · exact .inl ⟨fun j => all j (Nat.zero_le j), outcome⟩
      · exact .inr ⟨fun all => fails fun j _ => all j, strayed⟩
    · exact fun _ fails all => fails fun j _ => all j
  · rw [if_pos aligned]
    exact fun fits => aligned fits.1

/-! ### The pages of a segment -/

section Pages

variable {start : List Nat} {m₀ : Memory} {size n : Nat}

theorem Stocked.walkable_iff (stocked : Stocked start m₀ 0 (pageCount size) m free)
    (lost : m₀.lost = []) :
    Walkable (pageCount size) m.lost n ↔ HasTable (mappedPages size start.length) n := by
  unfold Walkable HasTable mappedPages
  by_cases low : n < KERNPAGE
  · rw [if_pos low, if_pos low]
    rcases stocked.lost with ⟨room, none⟩ | ⟨⟨short, first⟩, last⟩
    · rw [none, lost, if_pos room]
      exact ⟨fun ⟨n', inside, _, same⟩ => by omega,
        fun below => ⟨n / 1024 * 1024, below, by simp, by omega⟩⟩
    · rw [last, lost, if_neg (by omega)]
      refine ⟨fun ⟨n', inside, kept, same⟩ => ?_, fun below => ⟨n / 1024 * 1024, by omega, ?_,
        by omega⟩⟩
      · rw [List.mem_singleton] at kept
        omega
      · rw [List.mem_singleton]
        omega
  · rw [if_neg low, if_neg low]

/-- The virtual page `n` is a page of an image of `size` bytes. -/
def Belongs (free : List Nat) (size n : Nat) : Prop :=
  if n < KERNPAGE then n < mappedPages size free.length
  else ∃ i < pageCount size, ∃ p, free[growth 0 i]? = some p ∧ kernelFrame n = some p

theorem Stocked.inside_iff (stocked : Stocked start m₀ 0 (pageCount size) m free)
    (lost : m₀.lost = []) (grown : m₀.grown = []) :
    Inside (pageCount size) m.lost m.grown n ↔ Belongs start size n := by
  unfold Inside Belongs mappedPages
  by_cases low : n < KERNPAGE
  · rw [if_pos low, if_pos low]
    rcases stocked.lost with ⟨room, none⟩ | ⟨⟨short, first⟩, last⟩
    · rw [none, lost, if_pos room]
      simp
    · rw [last, lost, if_neg (by omega), List.mem_singleton]
      omega
  · rw [if_neg low, if_neg low]
    constructor
    · rintro ⟨p, isGrown, isFrame⟩
      rcases (stocked.grown p).mp isGrown with before | ⟨i, -, below, found⟩
      · rw [grown] at before
        cases before
      · exact ⟨i, below, p, found, isFrame⟩
    · rintro ⟨i, below, p, found, isFrame⟩
      exact ⟨p, (stocked.grown p).mpr (.inr ⟨i, Nat.zero_le i, below, found⟩), isFrame⟩

theorem Proghdr.reaches_fills :
    (ph.Reaches file j ∧ ph.Fills file j) ↔ j < pageCount (ph.stored file) := by
  unfold Proghdr.Reaches Proghdr.Fills pageCount Proghdr.stored
  omega

theorem Proghdr.reaches_ended : (ph.Reaches file j ∧ ¬ph.Fills file j) ↔
    ph.stored file < ph.filesz.toNat ∧ ph.stored file % 4096 = 0 ∧ j = ph.stored file / 4096 := by
  unfold Proghdr.Reaches Proghdr.Fills Proghdr.stored
  omega

theorem Belongs.hasTable (belongs : Belongs start size n) :
    HasTable (mappedPages size start.length) n := by
  unfold Belongs at belongs
  unfold HasTable
  split at belongs
  next low =>
    rw [if_pos low]
    omega
  next high =>
    rw [if_neg high]
    obtain ⟨-, -, p, -, isFrame⟩ := belongs
    rw [isFrame]
    simp

section Direct

variable (pages : ∀ {i p}, i < pageCount size → start[growth 0 i]? = some p → 0 < p ∧ p < 2 ^ 19)

include pages

/-- The direct mapping reaches neither physical page 0 nor the devices. -/
theorem Belongs.direct (belongs : Belongs start size n) (high : KERNPAGE ≤ n) :
    KERNPAGE < n ∧ n < KERNPAGE + 0xE000 := by
  unfold Belongs at belongs
  rw [if_neg (by omega)] at belongs
  obtain ⟨i, below, p, found, isFrame⟩ := belongs
  have bounds := pages below found
  unfold kernelFrame PHYSTOP DEVSPACE PGSIZE at isFrame
  unfold KERNPAGE at *
  split at isFrame
  · have := Option.some.inj isFrame
    omega
  · split at isFrame
    · have := Option.some.inj isFrame
      omega
    · cases isFrame

theorem belong_iff {first count : Nat} (small : first < 2 ^ 20) (few : count ≤ 18)
    (bound : mappedPages size start.length ≤ KERNPAGE) :
    Belong start size first count ↔
      ∀ j < count, Belongs start size ((first + j) % 2 ^ 20) := by
  unfold Belong
  by_cases low : first < KERNPAGE
  · rw [if_pos low]
    unfold KERNPAGE at low
    refine ⟨fun fits j inside => ?_, fun all => ?_⟩
    · unfold Belongs KERNPAGE at *
      rw [Nat.mod_eq_of_lt (by omega), if_pos (by omega)]
      omega
    · by_contra outside
      rw [not_or] at outside
      -- the last page, or the first one of the kernel half
      by_cases crosses : first + count ≤ KERNPAGE
      · have last := all (count - 1) (by omega)
        unfold Belongs KERNPAGE at *
        rw [Nat.mod_eq_of_lt (by omega), if_pos (by omega)] at last
        omega
      · unfold KERNPAGE at crosses
        have border := all (KERNPAGE - first) (by unfold KERNPAGE; omega)
        rw [show (first + (KERNPAGE - first)) % 2 ^ 20 = KERNPAGE by
          unfold KERNPAGE
          omega] at border
        exact Nat.lt_irrefl _ (border.direct pages le_rfl).1
  · rw [if_neg low]
    have high : KERNPAGE ≤ first := Nat.le_of_not_lt low
    unfold KERNPAGE at high
    have each : ∀ j, first + j < 2 ^ 20 → (Belongs start size ((first + j) % 2 ^ 20) ↔
        ∃ n < pageCount size, ∃ p, start[growth 0 n]? = some p ∧
          kernelFrame (first + j) = some p) := by
      intro j inside
      rw [Nat.mod_eq_of_lt inside, Belongs, if_neg (by unfold KERNPAGE; omega)]
    have near : ∀ j, j < count → Belongs start size (first % 2 ^ 20) → first + j < 2 ^ 20 := by
      intro j inside belongs
      rw [Nat.mod_eq_of_lt small] at belongs
      have := (belongs.direct pages high).2
      unfold KERNPAGE at this
      omega
    refine ⟨fun all j inside => ?_, fun all j inside => ?_⟩
    · have start := (each 0 (by omega)).mpr (all 0 (by omega))
      exact (each j (near j inside start)).mpr (all j inside)
    · exact (each j (near j inside (all 0 (by omega)))).mp (all j inside)

theorem Belong.end_lt {first count : Nat} (inside : Belong start size first count)
    (small : first < 2 ^ 20) (few : count ≤ 18) (bound : mappedPages size start.length ≤ KERNPAGE) :
    first + count < 2 ^ 20 := by
  by_cases low : first < KERNPAGE
  · unfold KERNPAGE at low
    omega
  by_cases empty : count = 0
  · omega
  -- the first page is in the direct mapping
  have belongs := (belong_iff pages small few bound).mp inside 0 (by omega)
  rw [Nat.add_zero, Nat.mod_eq_of_lt small] at belongs
  have near := (belongs.direct pages (Nat.le_of_not_lt low)).2
  unfold KERNPAGE at near
  omega

end Direct

theorem pageNumber_add_addr {a : Word} {j : Nat} (aligned : a.toNat % PGSIZE = 0)
    (near : j < 2 ^ 20) : pageNumber (a + addr j) = (pageNumber a + j) % 2 ^ 20 := by
  have range := a.isLt
  unfold pageNumber
  rw [BitVec.toNat_add, toNat_addr near]
  unfold PGSIZE at aligned ⊢
  omega

/-- Page by page, `loaduvm` stays within the image exactly if the segment fits. -/
theorem Proghdr.fits_iff (image : Image layout own base none (pageCount size) m d free)
    (stocked : Stocked start m₀ 0 (pageCount size) m free) (lost : m₀.lost = [])
    (grown : m₀.grown = []) :
    ph.Fits file size start ↔ ph.vaddr.toNat % PGSIZE = 0 ∧
      ∀ j, ph.PageFits file (pageCount size) m.lost m.grown j := by
  have short := file.length_lt
  have small := pageNumber_lt ph.vaddr
  have few : pageCount (ph.stored file) ≤ 18 := by
    unfold pageCount Proghdr.stored
    omega
  have bound : mappedPages size start.length ≤ KERNPAGE := by
    have := image.bound
    unfold mappedPages
    split <;> omega
  have pages : ∀ {i p}, i < pageCount size → start[growth 0 i]? = some p → 0 < p ∧ p < 2 ^ 19 := by
    intro i p below found
    have inside := (image.apart ((stocked.grown p).mpr (.inr ⟨i, Nat.zero_le i, below, found⟩))).1
    exact ⟨image.pos inside, image.small inside⟩
  -- the page after the last byte of the file
  have after : ph.vaddr.toNat % PGSIZE = 0 → Belong start size (pageNumber ph.vaddr)
      (pageCount (ph.stored file)) → pageNumber (ph.vaddr + addr (ph.stored file / 4096)) =
        pageNumber ph.vaddr + ph.stored file / 4096 := by
    intro aligned inside
    have ends := inside.end_lt pages small few bound
    unfold pageCount at few ends
    rw [pageNumber_add_addr aligned (by omega), Nat.mod_eq_of_lt (by omega)]
  constructor
  · rintro ⟨aligned, inside, ended⟩
    refine ⟨aligned, fun j reaches => ?_⟩
    rw [stocked.walkable_iff lost, stocked.inside_iff lost grown]
    by_cases fills : ph.Fills file j
    · have count := Proghdr.reaches_fills.mp ⟨reaches, fills⟩
      rw [pageNumber_add_addr aligned (by omega)]
      have belongs := (belong_iff pages small few bound).mp inside j count
      exact ⟨belongs.hasTable, fun _ => belongs⟩
    · obtain ⟨part, whole, rfl⟩ := Proghdr.reaches_ended.mp ⟨reaches, fills⟩
      rw [after aligned inside]
      exact ⟨ended part whole, fun isFilled => absurd isFilled fills⟩
  · rintro ⟨aligned, all⟩
    have inside : Belong start size (pageNumber ph.vaddr) (pageCount (ph.stored file)) := by
      refine (belong_iff pages small few bound).mpr fun j count => ?_
      obtain ⟨reaches, fills⟩ := Proghdr.reaches_fills.mpr count
      have belongs := (all j reaches).2 fills
      rwa [stocked.inside_iff lost grown, pageNumber_add_addr aligned (by omega)] at belongs
    refine ⟨aligned, inside, fun part whole => ?_⟩
    obtain ⟨reaches, -⟩ := Proghdr.reaches_ended.mpr ⟨part, whole, rfl⟩
    have walkable := (all _ reaches).1
    rwa [stocked.walkable_iff lost, after aligned inside] at walkable

end Pages

variable {start : List Nat} {m₀ : Memory} {size : Nat} {sz : Word}

/-- The image after some segments: loaded, or given up with the directory intact. -/
def Held (layout : Layout) (own : Nat → Prop) (base : Nat → Page) (d : Nat) (start : List Nat)
    (m₀ : Memory) (size : Nat) (result : Option Word) (m : Memory) : Prop :=
  match result with
  | none => m.stray = [] ∧ ∃ free, Space layout own base m d free
  | some sz => sz.toNat = size ∧ sz.toNat < KERNBASE ∧
      ∃ free, Image layout own base none (pages sz) m d free ∧
        Stocked start m₀ 0 (pages sz) m free

theorem loadSegment_spec (image : Image layout own base none (pages sz) m d free)
    (stocked : Stocked start m₀ 0 (pages sz) m free) (lost : m₀.lost = []) (grown : m₀.grown = [])
    (small : sz.toNat < KERNBASE) (isLoad : ph.type = ELF_PROG_LOAD)
    (isSize : max sz.toNat (ph.vaddr + ph.memsz).toNat = size) :
    (loadSegment layout file d sz ph).Ensures m
      (fun result m' => ((ph.Placed size start.length → ph.Fits file size start) ∧
          Held layout own base d start m₀ size result m' ∧
          (result ≠ none ↔ ph.Loads file size start.length)) ∨
        ¬(ph.Placed size start.length → ph.Fits file size start) ∧ Strayed m')
      (fun _ => ¬(ph.Placed size start.length → ph.Fits file size start)) := by
  have refused : ∀ {m' : Memory}, ¬ph.Placed size start.length → m'.stray = [] →
      (∃ free', Space layout own base m' d free') →
      ((ph.Placed size start.length → ph.Fits file size start) ∧
        Held layout own base d start m₀ size none m' ∧
        ((none : Option Word) ≠ none ↔ ph.Loads file size start.length)) := fun away clean space =>
    ⟨fun placed => absurd placed away, ⟨clean, space⟩,
      iff_of_false (fun some => some rfl) fun loads => away loads.1⟩
  unfold loadSegment
  rw [if_neg (by simpa using isLoad)]
  by_cases less : ph.memsz < ph.filesz
  · rw [if_pos less]
    rw [BitVec.lt_def] at less
    exact .inl (refused (fun placed => by have := placed.ordered; omega) image.clean
      ⟨free, image.toSpace⟩)
  · rw [if_neg less]
    rw [BitVec.lt_def] at less
    refine (stocked.allocuvm_spec image fun _ => lost).bind ?_ (by simp)
    rintro sz' m' (⟨below, isMax, free', after, stocked'⟩ | ⟨rfl, clean, space, short⟩)
    · rw [isSize] at isMax
      have count : pages sz' = pageCount size := by rw [← isMax]; rfl
      by_cases zero : sz' = 0
      · rw [if_pos zero]
        refine .inl (refused (fun placed => ?_) after.clean ⟨free', after.toSpace⟩)
        have := placed.nonempty
        rw [← isMax, zero] at this
        exact absurd this (by decide)
      · have placed : ph.Placed size start.length := by
          refine ⟨by omega, below, ?_, count ▸ stocked'.affords⟩
          rw [← isMax]
          exact Nat.pos_of_ne_zero fun isZero => zero (BitVec.eq_of_toNat_eq isZero)
        have within : sz'.toNat < KERNBASE := by omega
        rw [if_neg zero, ensures_bind]
        have pageFits : ph.Fits file size start ↔ _ :=
          Proghdr.fits_iff (count ▸ after) (count ▸ stocked') lost grown
        rw [← count] at pageFits
        simp only [placed, true_imp_iff, pageFits]
        refine (loaduvm_spec after).mono ?_ fun _ fails => fails
        rintro ok m'' (⟨fits, whole, loaded, sameGrown, sameLost⟩ | ⟨fails, strayed⟩)
        · cases ok with
          | true =>
            exact .inl ⟨fits, ⟨isMax, within, free', loaded, stocked'.congr sameGrown sameLost⟩,
              iff_of_true (by simp) ⟨placed, whole.mp rfl⟩⟩
          | false =>
            exact .inl ⟨fits, ⟨loaded.clean, free', loaded.toSpace⟩,
              iff_of_false (fun some => some rfl)
              fun loads => Bool.false_ne_true (whole.mpr loads.2)⟩
        · cases ok <;> exact .inr ⟨fails, strayed⟩
    · rw [if_pos rfl]
      refine .inl (refused (fun placed => ?_) clean space)
      rcases short with high | ⟨order, short⟩
      · have := placed.below
        omega
      · refine short ?_
        have room := placed.room
        rwa [← isSize, Nat.max_eq_right order] at room

theorem loadLoop_spec (count : Nat) (off : Word)
    (image : Image layout own base none (pages sz) m d free)
    (stocked : Stocked start m₀ 0 (pages sz) m free) (lost : m₀.lost = []) (grown : m₀.grown = [])
    (small : sz.toNat < KERNBASE) {segments : List Proghdr}
    (isSegments : (file.headers count off).filter (fun ph => ph.type = ELF_PROG_LOAD) = segments) :
    (loadLoop layout file d count off sz).Ensures m
      (fun result m' => (SegmentsFit file sz.toNat start segments ∧
          Held layout own base d start m₀ (extent sz.toNat segments) result m' ∧
          (result ≠ none → (file.headers count off).length = count ∧
            SegmentsLoad file sz.toNat start.length segments)) ∨
        ¬SegmentsFit file sz.toNat start segments ∧ Strayed m')
      (fun _ => ¬SegmentsFit file sz.toNat start segments) := by
  induction count generalizing m free off sz segments with
  | zero =>
    subst isSegments
    exact .inl ⟨segmentsFit_nil, ⟨rfl, small, free, image, stocked⟩,
      fun _ => ⟨rfl, segmentsLoad_nil⟩⟩
  | succ count ih =>
    unfold loadLoop
    unfold Executable.headers at isSegments ⊢
    cases header : file.proghdr off with
    | none =>
      rw [header] at isSegments
      subst isSegments
      exact .inl ⟨segmentsFit_nil, ⟨image.clean, free, image.toSpace⟩, by simp⟩
    | some ph =>
      rw [header] at isSegments
      simp only [List.length_cons, Nat.add_right_cancel_iff]
      by_cases isLoad : ph.type = ELF_PROG_LOAD
      · simp only [List.filter_cons, isLoad, decide_true, if_true] at isSegments
        subst isSegments
        generalize isSize : max sz.toNat (ph.vaddr + ph.memsz).toNat = size
        rw [segmentsFit_cons, segmentsLoad_cons, isSize]
        refine (loadSegment_spec image stocked lost grown small isLoad isSize).bind ?_
          fun _ fails all => fails all.1
        rintro result m' (⟨fits, held, loads⟩ | ⟨fails, strayed⟩)
        · cases result with
          | none =>
            exact .inl ⟨⟨fits, fun whole => absurd rfl (loads.mpr whole)⟩, held, by simp⟩
          | some sz' =>
            obtain ⟨rfl, below, free', after, stocked'⟩ := held
            have whole := loads.mp (by simp)
            simp only [and_iff_right fits, whole, true_imp_iff, true_and]
            have later := ih (off + 32) after stocked' below rfl
            simp only [extent, List.foldl_cons, isSize]
            exact later
        · cases result with
          | none => exact .inr ⟨fun all => fails all.1, strayed⟩
          | some sz' =>
            exact (loadLoop_keeps _ _ _ m' strayed).mono
              (fun _ _ strayed => .inr ⟨fun all => fails all.1, strayed⟩)
              fun _ _ all => fails all.1
      · simp only [List.filter_cons, isLoad, decide_false] at isSegments
        have skips : loadSegment layout file d sz ph m = .ok (some sz, m) := by
          unfold loadSegment
          rw [if_pos isLoad]
          rfl
        rw [ensures_bind_of_ok skips]
        exact ih (off + 32) image stocked small isSegments

/-- What the loading phase leaves: an image, with the rest of the free pages, or nothing but
free pages. -/
def LoadHeld (layout : Layout) (own : Nat → Prop) (base : Nat → Page) (file : Executable)
    (free : List Nat) (result : Option Loaded) (m : Memory) : Prop :=
  match result with
  | none => m.stray = [] ∧ ∃ free, Arena layout own base m free
  | some loaded => file.Loads free.length ∧ loaded.sz.toNat = extent 0 file.segments ∧
      loaded.sz.toNat < KERNBASE ∧
      ∃ free' m₀, Image layout own base none (pages loaded.sz) m loaded.pgdir free' ∧
        Stocked (free.drop 65) m₀ 0 (pages loaded.sz) m free' ∧ m₀.lost = []

theorem load_spec (arena : Arena layout own base m free) :
    (load layout file).Ensures m
      (fun result m' => (file.Fits free ∧ LoadHeld layout own base file free result m') ∨
        ¬file.Fits free ∧ Strayed m')
      (fun _ => ¬file.Fits free) := by
  have start : Arena layout own base m.fresh free :=
    ⟨arena.chain, arena.nodup, arena.within, arena.range, arena.outside⟩
  unfold load Executable.Fits Executable.segments
  rw [ensures_bind, ensures_modify]
  cases isElf : file.elf with
  | none => exact .inl ⟨fun _ => segmentsFit_nil, rfl, free, start⟩
  | some elf =>
    dsimp only
    refine (setupkvm_spec start).bind ?_ (by simp)
    rintro result m' ⟨history, ⟨rfl, arena', short⟩ |
      ⟨d, free', rfl, suffix, space, budget, kernel, -, -, empty⟩⟩
    · rw [Memory.history_eq] at history
      exact .inl ⟨fun enough => by omega, history.2.2, [], arena'⟩
    · have image := Image.init space kernel empty history
      rw [Memory.history_eq] at history
      have rest : free' = free.drop 65 := by
        rw [List.suffix_iff_eq_drop.mp suffix, budget, Nat.add_sub_cancel_left]
      subst rest
      have enough : 65 ≤ free.length := by omega
      have zero : (0 : Word).toNat = 0 := rfl
      simp only [enough, true_imp_iff, ensures_bind]
      have loop : (loadLoop layout file d elf.phnum elf.phoff 0).Ensures m' _ _ :=
        loadLoop_spec elf.phnum elf.phoff image (Stocked.init m' 0 _) history.2.1 history.1
          (by decide) rfl
      refine loop.mono ?_ fun _ fails => fails
      rw [zero]
      rintro result m'' (⟨all, held, loads⟩ | ⟨fails, strayed⟩)
      · cases result with
        | none =>
          obtain ⟨clean, free'', after⟩ := held
          refine (freevm_spec after).bind ?_ (by simp)
          rintro - m₃ ⟨history, free₃, arena'⟩
          rw [Memory.history_eq] at history
          exact .inl ⟨all, by rw [history.2.2, clean], free₃, arena'⟩
        | some sz =>
          obtain ⟨isSize, below, free'', after, stocked⟩ := held
          obtain ⟨readable, whole⟩ := loads (by simp)
          have segments : file.segments = (file.headers elf.phnum elf.phoff).filter
              fun ph => ph.type = ELF_PROG_LOAD := by
            rw [Executable.segments, isElf]
          rw [List.length_drop] at whole
          refine .inl ⟨all, ⟨enough, ⟨elf, isElf, readable⟩, segments ▸ whole⟩, segments ▸ isSize,
            below, free'', m', after, stocked, history.2.1⟩
      · cases result with
        | none =>
          exact (freevm_keeps m'' strayed).bind (fun _ _ strayed => .inr ⟨fails, strayed⟩)
            fun _ _ => fails
        | some sz => exact .inr ⟨fails, strayed⟩

end Decides

/-! ## Two files -/

/-- Where a kernel of about 80 kB ends. -/
def typicalLayout : Layout where
  data := 0x108
  last := 0x114
  text_below := by decide
  data_below := by decide
  fits := by decide

def onePage : Executable :=
  .ofSegments [⟨ELF_PROG_LOAD, 0, 0, 52, BitVec.ofNat 32 PGSIZE⟩] [] (by decide)

theorem exists_freeList : ∃ m free, FreeList typicalLayout m free ∧ 69 ≤ free.length := by
  obtain ⟨m, -, list⟩ := freerange_blank typicalLayout (0x114 * PGSIZE) PHYSTOP (by decide) le_rfl
  refine ⟨m, _, list, ?_⟩
  rw [List.length_reverse, pagesBetween, List.length_range']
  decide

section Files

variable {layout : Layout} {own : Nat → Prop} {base : Nat → Page} {m : Memory} {d : Nat}
  {free : List Nat} {file : Executable}

theorem allocuvm_first (image : Image layout own base none 0 m d free) (whole : m.lost = [])
    (enough : 2 ≤ free.length) :
    ∃ m' free', allocuvm layout d 0 (BitVec.ofNat 32 PGSIZE) m = .ok (BitVec.ofNat 32 PGSIZE, m') ∧
      Image layout own base none 1 m' d free' ∧ m'.lost = [] := by
  have start : Image layout own base none (pages 0) m d free := image
  have spec : (allocuvm layout d 0 (BitVec.ofNat 32 PGSIZE)).Ensures m _ _ :=
    (Stocked.init m _ free).allocuvm_spec start fun _ => whole
  obtain ⟨size, m', returns, outcome⟩ := spec.exists_ok
  rcases outcome with ⟨-, isMax, free', after, stocked⟩ | ⟨-, -, -, high | ⟨-, short⟩⟩
  · obtain rfl : size = BitVec.ofNat 32 PGSIZE := BitVec.eq_of_toNat_eq (isMax.trans (by decide))
    refine ⟨m', free', returns, after, ?_⟩
    rcases stocked.lost with ⟨-, same⟩ | ⟨⟨few, -⟩, -⟩
    · exact same.trans whole
    · have one : growth (pages 0) (pages (BitVec.ofNat 32 PGSIZE)) = 2 := by decide
      omega
  · exact absurd high (by decide)
  · exact absurd (.inl (Nat.le_trans (by decide) enough)) short

theorem loadSegment_room {m' : Memory}
    (returns : allocuvm layout d 0 (BitVec.ofNat 32 PGSIZE) m = .ok (BitVec.ofNat 32 PGSIZE, m')) :
    loadSegment layout file d 0 ⟨ELF_PROG_LOAD, 0, 0, 0, BitVec.ofNat 32 PGSIZE⟩ m =
      .ok (some (BitVec.ofNat 32 PGSIZE), m') := by
  have size : (0 : Word) + BitVec.ofNat 32 PGSIZE = BitVec.ofNat 32 PGSIZE := by decide
  have loads : loaduvm layout file d 0 0 0 m' = .ok (true, m') := rfl
  unfold loadSegment
  rw [if_neg (by decide), if_neg (by decide)]
  simp only [size, bind_apply, returns]
  rw [if_neg (by decide), bind_apply, loads]
  rfl

theorem setupkvm_enough (list : FreeList layout m free) (enough : 69 ≤ free.length) :
    ∃ d m' free', setupkvm layout m.fresh = .ok (some d, m') ∧
      Image layout (· ∈ free) m.page none 0 m' d free' ∧ m'.lost = [] ∧ 4 ≤ free'.length := by
  have arena := list.arena
  have start : Arena layout (· ∈ free) m.page m.fresh free :=
    ⟨arena.chain, arena.nodup, arena.within, arena.range, arena.outside⟩
  obtain ⟨result, m', returns, history, outcome⟩ := (setupkvm_spec start).exists_ok
  rcases outcome with ⟨-, -, short⟩ | ⟨d, free', rfl, -, space, budget, kernel, -, -, empty⟩
  · omega
  · refine ⟨d, m', free', returns, Image.init space kernel empty history, ?_, by omega⟩
    rw [Memory.history_eq] at history
    exact history.2.1

theorem onePage_segments :
    onePage.segments = [⟨ELF_PROG_LOAD, 0, 0, 52, BitVec.ofNat 32 PGSIZE⟩] := by
  rw [onePage, Executable.segments_ofSegments (by decide)]
  decide

theorem onePage_stored : Proghdr.stored onePage ⟨ELF_PROG_LOAD, 0, 0, 52, BitVec.ofNat 32 PGSIZE⟩ =
    52 := by
  have length : onePage.content.length = 84 := Executable.length_ofSegments
  rw [Proghdr.stored, length]
  decide

theorem onePage_fits (enough : 67 ≤ free.length) : onePage.Fits free := by
  intro _
  rw [onePage_segments, segmentsFit_cons]
  refine ⟨fun _ => ⟨by decide, ?_, fun part => ?_⟩, fun _ => segmentsFit_nil⟩
  · rw [onePage_stored, Belong, if_pos (by decide), mappedPages, if_pos]
    · decide
    · rw [List.length_drop]
      exact Nat.le_trans (by decide : _ ≤ 2) (by omega)
  · rw [onePage_stored] at part
    exact absurd part (by decide)

end Files

/-! ## The loading phase is sound exactly for files that fit -/

end Xv6.Vm
