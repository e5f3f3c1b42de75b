import Xv6.Fs.Layout
import Xv6.Lib.Word

/-!
# Executable files

The files that `exec` reads, with `readi` as it sees them: the header, the program
headers and the bytes of the segments at the offsets they name.  Headers are read
back from a file that `Executable.ofSegments` puts together.
-/

namespace Xv6.Vm

structure Executable where
  content : List UInt8
  fits : content.length ≤ MAXFILE * BSIZE

namespace Executable

def size (file : Executable) : Word := BitVec.ofNat 32 file.content.length

def readi (file : Executable) (off n : Word) : Option (List UInt8) :=
  if file.size < off ∨ off + n < off then none
  else
    let n := if file.size < off + n then file.size - off else n
    some ((file.content.drop off.toNat).take n.toNat)

end Executable

structure Elfhdr where
  magic : Word
  entry : Word
  phoff : Word
  phnum : Nat

structure Proghdr where
  type : Word
  off : Word
  vaddr : Word
  filesz : Word
  memsz : Word
  deriving DecidableEq

abbrev ELF_MAGIC : Word := 0x464C457F
abbrev ELF_PROG_LOAD : Word := 1

def wordAt (bytes : List UInt8) (off : Nat) : Word :=
  BitVec.ofNat 32 (Bytes.field bytes off 4)

def Elfhdr.decode (bytes : List UInt8) : Elfhdr where
  magic := wordAt bytes 0
  entry := wordAt bytes 24
  phoff := wordAt bytes 28
  phnum := Bytes.field bytes 44 2

def Proghdr.decode (bytes : List UInt8) : Proghdr where
  type := wordAt bytes 0
  off := wordAt bytes 4
  vaddr := wordAt bytes 8
  filesz := wordAt bytes 16
  memsz := wordAt bytes 20

namespace Executable

def elf (file : Executable) : Option Elfhdr := do
  let bytes ← file.readi 0 52
  if bytes.length < 52 then none
  else
    let elf := Elfhdr.decode bytes
    if elf.magic ≠ ELF_MAGIC then none else some elf

def proghdr (file : Executable) (off : Word) : Option Proghdr := do
  let bytes ← file.readi off 32
  if bytes.length ≠ 32 then none else some (Proghdr.decode bytes)

/-- The program headers that `exec` comes to, up to the first one that it cannot read. -/
def headers (file : Executable) : (count : Nat) → (off : Word) → List Proghdr
  | 0, _ => []
  | count + 1, off =>
    match file.proghdr off with
    | none => []
    | some ph => ph :: headers file count (off + 32)

/-- The headers that `exec` loads. -/
def segments (file : Executable) : List Proghdr :=
  match file.elf with
  | none => []
  | some elf => (file.headers elf.phnum elf.phoff).filter fun ph => ph.type = ELF_PROG_LOAD

end Executable

theorem Executable.length_lt (file : Executable) : file.content.length < 18 * 4096 := by
  have := file.fits
  have value : MAXFILE * BSIZE = 71680 := rfl
  omega

theorem Executable.readi_eq (file : Executable) (off n : Word) : file.readi off n =
    if file.content.length < off.toNat ∨ 2 ^ 32 ≤ off.toNat + n.toNat then none
    else some ((file.content.drop off.toNat).take n.toNat) := by
  have short := file.length_lt
  have size : file.size.toNat = file.content.length := by
    rw [Executable.size, BitVec.toNat_ofNat]
    omega
  have bound := n.isLt
  have wraps : off + n < off ↔ 2 ^ 32 ≤ off.toNat + n.toNat := by
    rw [BitVec.lt_def, BitVec.toNat_add]
    omega
  have beyond : file.size < off ↔ file.content.length < off.toNat := by rw [BitVec.lt_def, size]
  unfold Executable.readi
  simp only [beyond, wraps]
  split
  · rfl
  next inside =>
    congr 1
    split
    next past =>
      -- all that is left of the file, either way
      rw [BitVec.lt_def, size, BitVec.toNat_add] at past
      have rest : (file.size - off).toNat = file.content.length - off.toNat := by
        rw [BitVec.toNat_sub, size]
        omega
      rw [rest, List.take_of_length_le (by simp), List.take_of_length_le]
      rw [List.length_drop]
      omega
    · rfl

/-! ## Files with given segments -/

namespace Proghdr

/-- A program header in the file; the fields `exec` does not read are zero. -/
def encode (ph : Proghdr) : List UInt8 :=
  Bytes.toLE 4 ph.type.toNat ++ (Bytes.toLE 4 ph.off.toNat ++ (Bytes.toLE 4 ph.vaddr.toNat ++
    (Bytes.toLE 4 0 ++ (Bytes.toLE 4 ph.filesz.toNat ++ (Bytes.toLE 4 ph.memsz.toNat ++
      List.replicate 8 0)))))

@[simp]
theorem length_encode (ph : Proghdr) : ph.encode.length = 32 := by simp [encode]

theorem decode_encode (ph : Proghdr) : decode ph.encode = ph := by
  have word : ∀ (w : Word) (after : List UInt8),
      BitVec.ofNat 32 (Bytes.field (Bytes.toLE 4 w.toNat ++ after) 0 4) = w := by
    intro w after
    rw [Bytes.field_toLE (by simpa using w.isLt), BitVec.ofNat_toNat, BitVec.setWidth_eq]
  unfold decode encode wordAt
  congr 1
  · exact word _ _
  · rw [Bytes.field_skip (by simp)]
    simpa using word _ _
  · rw [Bytes.field_skip (by simp), Bytes.field_skip (by simp)]
    simpa using word _ _
  · rw [Bytes.field_skip (by simp), Bytes.field_skip (by simp), Bytes.field_skip (by simp),
      Bytes.field_skip (by simp)]
    simpa using word _ _
  · rw [Bytes.field_skip (by simp), Bytes.field_skip (by simp), Bytes.field_skip (by simp),
      Bytes.field_skip (by simp), Bytes.field_skip (by simp)]
    simpa using word _ _

theorem take_flatMap_encode (phs : List Proghdr) (data : List UInt8) (i : Nat)
    (inside : i < phs.length) :
    ((phs.flatMap encode ++ data).drop (32 * i)).take 32 = phs[i].encode := by
  induction phs generalizing i with
  | nil => simp at inside
  | cons ph rest ih =>
    cases i with
    | zero =>
      rw [Nat.mul_zero, List.drop_zero, List.flatMap_cons, List.append_assoc,
        List.take_left' (length_encode ph)]
      rfl
    | succ i =>
      have index : 32 * (i + 1) = ph.encode.length + 32 * i := by
        rw [length_encode]
        omega
      rw [List.flatMap_cons, List.append_assoc, index, List.drop_append,
        List.drop_of_length_le (by simp), List.nil_append, Nat.add_sub_cancel_left]
      simpa using ih i (by simpa using inside)

end Proghdr

/-- The ELF header of a file with `count` program headers right behind it. -/
def Elfhdr.bytes (count : Nat) : List UInt8 :=
  Bytes.toLE 4 ELF_MAGIC.toNat ++ (List.replicate 24 0 ++ (Bytes.toLE 4 52 ++
    (List.replicate 12 0 ++ (Bytes.toLE 2 count ++ List.replicate 6 0))))

@[simp]
theorem Elfhdr.length_bytes (count : Nat) : (Elfhdr.bytes count).length = 52 := by
  simp [Elfhdr.bytes]

namespace Executable

/-- The file with these segments, and `data` behind the headers. -/
def ofSegments (phs : List Proghdr) (data : List UInt8)
    (fits : 52 + 32 * phs.length + data.length ≤ MAXFILE * BSIZE) : Executable where
  content := Elfhdr.bytes phs.length ++ (phs.flatMap Proghdr.encode ++ data)
  fits := by
    have headers : (phs.flatMap Proghdr.encode).length = 32 * phs.length := by
      rw [List.length_flatMap]
      simp [Nat.mul_comm]
    rw [List.length_append, List.length_append, headers, Elfhdr.length_bytes]
    omega

variable {phs : List Proghdr} {data : List UInt8}
  {fits : 52 + 32 * phs.length + data.length ≤ MAXFILE * BSIZE}

theorem length_ofSegments : (ofSegments phs data fits).content.length =
    52 + 32 * phs.length + data.length := by
  have headers : (phs.flatMap Proghdr.encode).length = 32 * phs.length := by
    rw [List.length_flatMap]
    simp [Nat.mul_comm]
  simp [ofSegments, headers]
  omega

theorem elf_ofSegments (few : phs.length < 2 ^ 16) :
    ∃ elf, (ofSegments phs data fits).elf = some elf ∧ elf.phoff = 52 ∧ elf.phnum = phs.length := by
  have read : (ofSegments phs data fits).readi 0 52 = some (Elfhdr.bytes phs.length) := by
    rw [readi_eq, if_neg]
    · simp [ofSegments, List.take_left' (Elfhdr.length_bytes phs.length)]
    · simp
  have magic : (Elfhdr.decode (Elfhdr.bytes phs.length)).magic = ELF_MAGIC := by
    simp only [Elfhdr.decode, wordAt, Elfhdr.bytes]
    rw [Bytes.field_toLE (by decide)]
    rfl
  refine ⟨Elfhdr.decode (Elfhdr.bytes phs.length), ?_, ?_, ?_⟩
  · rw [elf, read, Option.bind_eq_bind, Option.bind_some, if_neg (by simp)]
    simp [magic]
  · simp only [Elfhdr.decode, wordAt, Elfhdr.bytes]
    rw [Bytes.field_skip (by simp), Bytes.field_skip (by simp)]
    simp [Bytes.field_toLE]
  · simp only [Elfhdr.decode, Elfhdr.bytes]
    rw [Bytes.field_skip (by simp), Bytes.field_skip (by simp), Bytes.field_skip (by simp),
      Bytes.field_skip (by simp)]
    have number : Bytes.field (Bytes.toLE 2 phs.length ++ List.replicate 6 0) 0 2 = phs.length :=
      Bytes.field_toLE few
    simpa using number

theorem proghdr_ofSegments (i : Nat) (inside : i < phs.length) :
    (ofSegments phs data fits).proghdr (BitVec.ofNat 32 (52 + 32 * i)) = some phs[i] := by
  have short := (ofSegments phs data fits).length_lt
  have length : (ofSegments phs data fits).content.length = 52 + 32 * phs.length + data.length :=
    length_ofSegments
  have start : (BitVec.ofNat 32 (52 + 32 * i)).toNat = 52 + 32 * i := by
    rw [BitVec.toNat_ofNat]
    omega
  have count : (32 : Word).toNat = 32 := rfl
  have read : (ofSegments phs data fits).readi (BitVec.ofNat 32 (52 + 32 * i)) 32 =
      some phs[i].encode := by
    rw [readi_eq, start, count, if_neg (by omega), ← Proghdr.take_flatMap_encode phs data i inside]
    congr 2
    rw [ofSegments, List.drop_append, List.drop_of_length_le (by simp), List.nil_append,
      Elfhdr.length_bytes, Nat.add_sub_cancel_left]
  rw [proghdr, read, Option.bind_eq_bind, Option.bind_some, if_neg (by simp), Proghdr.decode_encode]

theorem headers_ofSegments (count i : Nat) (all : i + count = phs.length) :
    (ofSegments phs data fits).headers count (BitVec.ofNat 32 (52 + 32 * i)) = phs.drop i := by
  induction count generalizing i with
  | zero => rw [headers, List.drop_of_length_le (by omega)]
  | succ count ih =>
    have next : BitVec.ofNat 32 (52 + 32 * i) + 32 = BitVec.ofNat 32 (52 + 32 * (i + 1)) := by
      rw [Nat.mul_succ, ← Nat.add_assoc, BitVec.ofNat_add _ 32]
      rfl
    rw [headers, proghdr_ofSegments i (by omega)]
    dsimp only
    rw [next, ih (i + 1) (by omega), List.getElem_cons_drop]

theorem segments_ofSegments (few : phs.length < 2 ^ 16) : (ofSegments phs data fits).segments =
    phs.filter fun ph => ph.type = ELF_PROG_LOAD := by
  obtain ⟨elf, isElf, phoff, phnum⟩ : ∃ elf, (ofSegments phs data fits).elf = some elf ∧ _ :=
    elf_ofSegments few
  rw [segments, isElf]
  dsimp only
  rw [phoff, phnum]
  exact congrArg _ (headers_ofSegments phs.length 0 (Nat.zero_add _))

end Executable

end Xv6.Vm
