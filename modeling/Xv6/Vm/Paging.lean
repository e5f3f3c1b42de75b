import Xv6.Lib.Exec
import Xv6.Lib.Word
import Xv6.Param

/-!
# Physical memory and page tables

`kalloc.c` and `vm.c` on physical memory as pages of 1024 words.  Page
directories, page tables and the links of the free list are words in those
pages, so whatever writes a page can change them.  A pointer to a page that the
kernel uses through its direct mapping is the number of the page.

The last three fields of the state are history and are never read by the code.
-/

open Function (update)

namespace Xv6.Vm

open Exec

abbrev PGSIZE : Nat := 4096
abbrev NPDENTRIES : Nat := 1024
abbrev NPTENTRIES : Nat := 1024
abbrev EXTMEM : Nat := 0x100000
abbrev PHYSTOP : Nat := 0xE000000
abbrev DEVSPACE : Nat := 0xFE000000

abbrev kernbase : Word := BitVec.ofNat 32 KERNBASE

abbrev PTE_P : Word := 1
abbrev PTE_W : Word := 2
abbrev PTE_U : Word := 4

structure Layout where
  data : Nat
  /-- the first page after the kernel, `PGROUNDUP(V2P(end))` -/
  last : Nat
  text_below : EXTMEM / PGSIZE < data
  data_below : data ≤ last
  fits : last < PHYSTOP / PGSIZE

inductive Trap where
  | kfree
  | remap
  /-- loaduvm: addr must be page aligned -/
  | unaligned
  /-- loaduvm: address should exist -/
  | noAddress
  /-- copyuvm: pte should exist, or page not present -/
  | copyuvm
  | clearpteu
  /-- `uva2ka` reads through a null pointer -/
  | nullPte
  /-- a write that the direct mapping of the kernel does not allow -/
  | fault
  /-- a loop that does not end -/
  | diverges
  /-- filedup, or fileclose -/
  | file
  /-- userinit: out of memory?, inituvm: more than a page, or init exiting -/
  | init
  /-- a null pointer of a process -/
  | nullPointer
  deriving DecidableEq, Repr

abbrev Page := Nat → Word

structure Memory where
  page : Nat → Page
  freelist : Word
  /-- the pages that `allocuvm` has allocated, last first -/
  grown : List Nat
  /-- the virtual pages that `allocuvm` has failed to map -/
  lost : List Nat
  /-- the pages that `loaduvm` and `copyout` have written when they were not among `grown` -/
  stray : List Nat

abbrev VmM (α : Type) := Exec Trap Memory α

/-! ## Addresses and entries -/

def PDX (va : Word) : Nat := va.toNat / 2 ^ 22
def PTX (va : Word) : Nat := va.toNat / 2 ^ 12 % 1024
def PGROUNDUP (a : Word) : Word :=
  (a + BitVec.ofNat 32 (PGSIZE - 1)) &&& ~~~(BitVec.ofNat 32 (PGSIZE - 1))
def PGROUNDDOWN (a : Word) : Word := a &&& ~~~(BitVec.ofNat 32 (PGSIZE - 1))

def present (pte : Word) : Bool := pte &&& PTE_P != 0

def isUser (pte : Word) : Bool := pte &&& PTE_U != 0

def frame (pte : Word) : Nat := pte.toNat / PGSIZE

def entry (pa perm : Word) : Word := pa ||| perm ||| PTE_P

def addr (page : Nat) : Word := BitVec.ofNat 32 (page * PGSIZE)

def p2v (page : Nat) : Word := kernbase + addr page

/-! ## Pages -/

def setWord (page i : Nat) (word : Word) : VmM Unit :=
  Exec.modify fun m => { m with
    page := update m.page page (update (m.page page) i word) }

def setPage (page : Nat) (content : Page) : VmM Unit :=
  Exec.modify fun m => { m with page := update m.page page content }

def kalloc : VmM (Option Nat) := do
  let m ← Exec.get
  if m.freelist = 0 then return none
  else
    let page := frame (m.freelist - kernbase)
    Exec.modify fun m => { m with freelist := m.page page 0 }
    return some page

def kfree (layout : Layout) (page : Nat) : VmM Unit := do
  if page < layout.last ∨ PHYSTOP / PGSIZE ≤ page then Exec.fail .kfree
  else
    setPage page fun _ => 0x01010101
    let m ← Exec.get
    setWord page 0 m.freelist
    Exec.modify fun m => { m with freelist := p2v page }

def freePages (layout : Layout) : (page count : Nat) → VmM Unit
  | _, 0 => return ()
  | page, count + 1 => do
    kfree layout page
    freePages layout (page + 1) count

/-- `freerange`, and so `kinit1` and `kinit2`, on physical addresses. -/
def freerange (layout : Layout) (vstart vend : Nat) : VmM Unit :=
  let first := (vstart + (PGSIZE - 1)) / PGSIZE
  freePages layout first (vend / PGSIZE - first)

/-! ## Page tables -/

/-- The page and the index of the entry for an address. -/
def walkpgdir (pgdir : Nat) (va : Word) (alloc : Bool) : VmM (Option (Nat × Nat)) := do
  let m ← Exec.get
  if present (m.page pgdir (PDX va)) then
    return some (frame (m.page pgdir (PDX va)), PTX va)
  else if !alloc then return none
  else
    match ← kalloc with
    | none => return none
    | some pgtab =>
      setPage pgtab fun _ => 0
      setWord pgdir (PDX va) (addr pgtab ||| PTE_P ||| PTE_W ||| PTE_U)
      return some (pgtab, PTX va)

/-- One round of `mappages`; the result says whether there is a page table. -/
def mapPage (pgdir : Nat) (perm a pa : Word) : VmM Bool := do
  match ← walkpgdir pgdir a true with
  | none => return false
  | some (pgtab, i) =>
    let m ← Exec.get
    if present (m.page pgtab i) then Exec.fail .remap
    else
      setWord pgtab i (entry pa perm)
      return true

def mappagesLoop (pgdir : Nat) (perm last : Word) : (fuel : Nat) → (a pa : Word) → VmM Bool
  | 0, _, _ => Exec.fail .diverges
  | fuel + 1, a, pa => do
    if ← mapPage pgdir perm a pa then
      if a = last then return true
      else
        mappagesLoop pgdir perm last fuel (a + BitVec.ofNat 32 PGSIZE)
          (pa + BitVec.ofNat 32 PGSIZE)
    else return false

def mappages (pgdir : Nat) (va size pa perm : Word) : VmM Bool :=
  mappagesLoop pgdir perm (PGROUNDDOWN (va + size - 1)) (2 ^ 20) (PGROUNDDOWN va) pa

structure Kmap where
  virt : Word
  phys_start : Word
  phys_end : Word
  perm : Word

def kmap (layout : Layout) : List Kmap := [
  ⟨kernbase, 0, BitVec.ofNat 32 EXTMEM, PTE_W⟩,
  ⟨kernbase + BitVec.ofNat 32 EXTMEM, BitVec.ofNat 32 EXTMEM, addr layout.data, 0⟩,
  ⟨p2v layout.data, addr layout.data, BitVec.ofNat 32 PHYSTOP, PTE_W⟩,
  ⟨BitVec.ofNat 32 DEVSPACE, BitVec.ofNat 32 DEVSPACE, 0, PTE_W⟩]

def setupkvmLoop (pgdir : Nat) : List Kmap → VmM (Option Nat)
  | [] => return some pgdir
  | k :: rest => do
    if ← mappages pgdir k.virt (k.phys_end - k.phys_start) k.phys_start k.perm then
      setupkvmLoop pgdir rest
    else return none

def setupkvm (layout : Layout) : VmM (Option Nat) := do
  match ← kalloc with
  | none => return none
  | some pgdir =>
    setPage pgdir fun _ => 0
    setupkvmLoop pgdir (kmap layout)

/-! ## User memory -/

section User

variable (layout : Layout) (pgdir : Nat)

def deallocuvmLoop (oldsz : Word) : (fuel : Nat) → (a : Word) → VmM Unit
  | 0, _ => Exec.fail .diverges
  | fuel + 1, a => do
    if a < oldsz then
      match ← walkpgdir pgdir a false with
      | none =>
        -- on to the next page table
        deallocuvmLoop oldsz fuel
          (a + BitVec.ofNat 32 ((NPTENTRIES - 1) * PGSIZE) + BitVec.ofNat 32 PGSIZE)
      | some (pgtab, i) =>
        let m ← Exec.get
        if present (m.page pgtab i) then
          if frame (m.page pgtab i) = 0 then Exec.fail .kfree
          else
            kfree layout (frame (m.page pgtab i))
            setWord pgtab i 0
            deallocuvmLoop oldsz fuel (a + BitVec.ofNat 32 PGSIZE)
        else deallocuvmLoop oldsz fuel (a + BitVec.ofNat 32 PGSIZE)
    else return ()

def deallocuvm (oldsz newsz : Word) : VmM Word := do
  if oldsz ≤ newsz then return oldsz
  else
    deallocuvmLoop layout pgdir oldsz (2 ^ 20 + 1) (PGROUNDUP newsz)
    return newsz

/-- What `allocuvm` does with a page it has got. -/
def growPage (mem : Nat) (a : Word) : VmM Unit := do
  setPage mem fun _ => 0
  -- the result of `mappages` is not looked at
  let mapped ← mappages pgdir a (BitVec.ofNat 32 PGSIZE) (addr mem) (PTE_W ||| PTE_U)
  Exec.modify fun m => { m with
    grown := mem :: m.grown
    lost := if mapped then m.lost else a.toNat / PGSIZE :: m.lost }

def allocuvmLoop (oldsz newsz : Word) : (fuel : Nat) → (a : Word) → VmM Word
  | 0, _ => Exec.fail .diverges
  | fuel + 1, a => do
    if a < newsz then
      match ← kalloc with
      | none =>
        let _ ← deallocuvm layout pgdir newsz oldsz
        return 0
      | some mem =>
        growPage pgdir mem a
        allocuvmLoop oldsz newsz fuel (a + BitVec.ofNat 32 PGSIZE)
    else return newsz

/-- The new size, or zero. -/
def allocuvm (oldsz newsz : Word) : VmM Word := do
  if kernbase ≤ newsz then return 0
  else if newsz < oldsz then return oldsz
  else allocuvmLoop layout pgdir oldsz newsz (2 ^ 20 + 1) (PGROUNDUP oldsz)

def freevmLoop : List Nat → VmM Unit
  | [] => return ()
  | i :: rest => do
    let m ← Exec.get
    if present (m.page pgdir i) then
      kfree layout (frame (m.page pgdir i))
      freevmLoop rest
    else freevmLoop rest

def freevm : VmM Unit := do
  let _ ← deallocuvm layout pgdir kernbase 0
  freevmLoop layout pgdir (List.range NPDENTRIES)
  kfree layout pgdir

def clearpteu (uva : Word) : VmM Unit := do
  match ← walkpgdir pgdir uva false with
  | none => Exec.fail .clearpteu
  | some (pgtab, i) =>
    let m ← Exec.get
    setWord pgtab i (m.page pgtab i &&& ~~~PTE_U)

/-- The loop of `copyuvm` into `d`; the result says whether it succeeds. -/
def copyuvmLoop (d : Nat) (sz : Word) : (fuel : Nat) → (i : Word) → VmM Bool
  | 0, _ => Exec.fail .diverges
  | fuel + 1, i => do
    if i < sz then
      match ← walkpgdir pgdir i false with
      | none => Exec.fail .copyuvm
      | some (pgtab, j) =>
        let m ← Exec.get
        let pte := m.page pgtab j
        if !present pte then Exec.fail .copyuvm
        else
          match ← kalloc with
          | none => return false
          | some mem =>
            let m ← Exec.get
            setPage mem (m.page (frame pte))
            if ← mappages d i (BitVec.ofNat 32 PGSIZE) (addr mem)
                (pte &&& BitVec.ofNat 32 (PGSIZE - 1)) then
              copyuvmLoop d sz fuel (i + BitVec.ofNat 32 PGSIZE)
            else return false
    else return true

def copyuvm (sz : Word) : VmM (Option Nat) := do
  match ← setupkvm layout with
  | none => return none
  | some d =>
    if ← copyuvmLoop pgdir d sz (2 ^ 20 + 1) 0 then return some d
    else
      freevm layout d
      return none

def uva2ka (uva : Word) : VmM (Option Nat) := do
  match ← walkpgdir pgdir uva false with
  | none => Exec.fail .nullPte
  | some (pgtab, i) =>
    let m ← Exec.get
    if !present (m.page pgtab i) then return none
    else if !isUser (m.page pgtab i) then return none
    else return some (frame (m.page pgtab i))

end User

/-! ## Bytes -/

def Page.byte (page : Page) (k : Nat) : UInt8 :=
  UInt8.ofBitVec ((page (k / 4) >>> (k % 4 * 8)).setWidth 8)

def Page.ofBytes (byte : Nat → UInt8) : Page := fun i =>
  (byte (4 * i + 3)).toBitVec ++ (byte (4 * i + 2)).toBitVec ++ (byte (4 * i + 1)).toBitVec ++
    (byte (4 * i)).toBitVec

def Page.store (page : Page) (off : Nat) (bytes : List UInt8) : Page :=
  Page.ofBytes fun k =>
    if off ≤ k ∧ k < off + bytes.length then bytes.getD (k - off) 0 else page.byte k

/-- A write through the direct mapping, which ends at `PHYSTOP` and does not allow
writes to the text of the kernel. -/
def storeBytes (layout : Layout) (page off : Nat) (bytes : List UInt8) : VmM Unit :=
  if bytes = [] then return ()
  else if PHYSTOP / PGSIZE ≤ page ∨ EXTMEM / PGSIZE ≤ page ∧ page < layout.data then
    Exec.fail .fault
  else
    Exec.modify fun m => { m with
      page := update m.page page ((m.page page).store off bytes)
      stray := if page ∈ m.grown then m.stray else page :: m.stray }

/-- `copyout`, which returns -1 at the first page that users may not access. -/
def copyout (layout : Layout) (pgdir : Nat) : (fuel : Nat) → (va : Word) → (bytes : List UInt8) →
    VmM Bool
  | 0, _, _ => Exec.fail .diverges
  | fuel + 1, va, bytes => do
    if bytes = [] then return true
    else
      let va0 := PGROUNDDOWN va
      match ← uva2ka pgdir va0 with
      | none => return false
      | some pa0 =>
        let n := min (PGSIZE - (va - va0).toNat) bytes.length
        storeBytes layout pa0 (va - va0).toNat (bytes.take n)
        copyout layout pgdir fuel (va0 + BitVec.ofNat 32 PGSIZE) (bytes.drop n)

/-! ## Arithmetic of addresses and entries -/

theorem toNat_roundDown (a : Word) : (PGROUNDDOWN a).toNat = a.toNat / PGSIZE * PGSIZE :=
  Word.toNat_clear a 12

theorem toNat_roundUp {a : Word} (small : a.toNat + (PGSIZE - 1) < 2 ^ 32) :
    (PGROUNDUP a).toNat = (a.toNat + (PGSIZE - 1)) / PGSIZE * PGSIZE := by
  have same : PGROUNDUP a = PGROUNDDOWN (a + BitVec.ofNat 32 (PGSIZE - 1)) := rfl
  rw [same, toNat_roundDown, BitVec.toNat_add, BitVec.toNat_ofNat]
  rw [Nat.mod_eq_of_lt (by omega)]
  rfl

theorem present_eq_bit (w : Word) : present w = w.getLsbD 0 := by
  have value : w &&& PTE_P = if w.getLsbD 0 then PTE_P else 0 := BitVec.and_twoPow w 0
  unfold present
  rw [value]
  cases w.getLsbD 0 <;> rfl

theorem isUser_eq_bit (w : Word) : isUser w = w.getLsbD 2 := by
  have value : w &&& PTE_U = if w.getLsbD 2 then PTE_U else 0 := BitVec.and_twoPow w 2
  unfold isUser
  rw [value]
  cases w.getLsbD 2 <;> rfl

@[simp]
theorem present_zero : present 0#32 = false := rfl

theorem toNat_or_flags {pa flags : Word} (aligned : pa.toNat % PGSIZE = 0)
    (small : flags.toNat < PGSIZE) : (pa ||| flags).toNat = pa.toNat + flags.toNat := by
  have parts : pa.toNat = 2 ^ 12 * (pa.toNat / 2 ^ 12) := by
    have := Nat.div_add_mod pa.toNat (2 ^ 12)
    unfold PGSIZE at aligned
    omega
  rw [BitVec.toNat_or, parts, ← Nat.two_pow_add_eq_or_of_lt small]

theorem toNat_entry {pa perm : Word} (aligned : pa.toNat % PGSIZE = 0)
    (small : perm.toNat < PGSIZE) : (entry pa perm).toNat = pa.toNat + (perm ||| PTE_P).toNat := by
  have flags : (perm ||| PTE_P).toNat < PGSIZE := by
    rw [BitVec.toNat_or]
    exact Nat.or_lt_two_pow (n := 12) small (by decide)
  unfold entry
  rw [BitVec.or_assoc, toNat_or_flags aligned flags]

@[simp]
theorem present_entry (pa perm : Word) : present (entry pa perm) = true := by
  rw [present_eq_bit, entry, BitVec.getLsbD_or]
  simp

theorem isUser_entry {pa : Word} (aligned : pa.toNat % PGSIZE = 0) (perm : Word) :
    isUser (entry pa perm) = isUser perm := by
  have low : pa.getLsbD 2 = false := by
    rw [BitVec.getLsbD, Nat.testBit_eq_decide_div_mod_eq]
    unfold PGSIZE at aligned
    simp
    omega
  rw [isUser_eq_bit, isUser_eq_bit, entry, BitVec.getLsbD_or, BitVec.getLsbD_or, low]
  simp

theorem frame_entry {pa perm : Word} (aligned : pa.toNat % PGSIZE = 0)
    (small : perm.toNat < PGSIZE) : frame (entry pa perm) = pa.toNat / PGSIZE := by
  have flags : (perm ||| PTE_P).toNat < PGSIZE := by
    rw [BitVec.toNat_or]
    exact Nat.or_lt_two_pow (n := 12) small (by decide)
  unfold frame
  rw [toNat_entry aligned small]
  unfold PGSIZE at *
  omega

theorem clear_user (w : Word) : present (w &&& ~~~PTE_U) = present w ∧
    isUser (w &&& ~~~PTE_U) = false ∧ frame (w &&& ~~~PTE_U) = frame w := by
  refine ⟨?_, ?_, ?_⟩
  · rw [present_eq_bit, present_eq_bit, BitVec.getLsbD_and]
    simp
  · rw [isUser_eq_bit, BitVec.getLsbD_and]
    simp
  · have high : (w &&& ~~~PTE_U) >>> 12 = w >>> 12 := by
      have mask : (~~~PTE_U : Word) >>> 12 = (BitVec.allOnes 32) >>> 12 := by decide
      rw [BitVec.ushiftRight_and_distrib, mask, ← BitVec.ushiftRight_and_distrib,
        BitVec.and_allOnes]
    have := congrArg BitVec.toNat high
    rwa [BitVec.toNat_ushiftRight, BitVec.toNat_ushiftRight, Nat.shiftRight_eq_div_pow,
      Nat.shiftRight_eq_div_pow] at this

theorem toNat_addr {page : Nat} (small : page < 2 ^ 20) : (addr page).toNat = page * PGSIZE := by
  rw [addr, BitVec.toNat_ofNat]
  unfold PGSIZE
  omega

theorem addr_aligned (page : Nat) : (addr page).toNat % PGSIZE = 0 := by
  rw [addr, BitVec.toNat_ofNat]
  unfold PGSIZE
  omega

theorem present_table (pgtab : Nat) :
    present (addr pgtab ||| PTE_P ||| PTE_W ||| PTE_U) = true := by
  rw [present_eq_bit]
  simp

theorem frame_table {pgtab : Nat} (small : pgtab < 2 ^ 20) :
    frame (addr pgtab ||| PTE_P ||| PTE_W ||| PTE_U) = pgtab := by
  have flags : addr pgtab ||| PTE_P ||| PTE_W ||| PTE_U = addr pgtab ||| 7 := by
    rw [BitVec.or_assoc, BitVec.or_assoc]
    rfl
  rw [flags, frame, toNat_or_flags (addr_aligned pgtab) (by decide), toNat_addr small]
  have : (7 : Word).toNat = 7 := rfl
  unfold PGSIZE
  omega

theorem frame_entry_addr {page : Nat} {perm : Word} (small : page < 2 ^ 20)
    (flags : perm.toNat < PGSIZE) : frame (entry (addr page) perm) = page := by
  rw [frame_entry (addr_aligned page) flags, toNat_addr small]
  unfold PGSIZE
  omega

theorem toNat_p2v {page : Nat} (small : page < 2 ^ 19) :
    (p2v page).toNat = KERNBASE + page * PGSIZE := by
  rw [p2v, BitVec.toNat_add, toNat_addr (by omega)]
  have : kernbase.toNat = KERNBASE := rfl
  unfold PGSIZE KERNBASE at *
  omega

theorem frame_p2v {page : Nat} (small : page < 2 ^ 19) : frame (p2v page - kernbase) = page := by
  have same : p2v page - kernbase = addr page := by
    unfold p2v
    rw [BitVec.add_comm, BitVec.add_sub_cancel]
  rw [same, frame, toNat_addr (by omega)]
  unfold PGSIZE
  omega

theorem p2v_ne_zero {page : Nat} (small : page < 2 ^ 19) : p2v page ≠ 0 := by
  intro zero
  have value := toNat_p2v small
  rw [zero] at value
  have : (0 : Word).toNat = 0 := rfl
  unfold KERNBASE at value
  omega

end Xv6.Vm
