import Xv6.Vm.Load

/-!
# The stack that exec builds

The second phase of `exec` takes two pages, makes the lower one inaccessible and
copies the argument strings and their addresses below the top of the upper one.
`sp` is unsigned, so a long string can take it below zero; `copyout` then looks at
an address of the kernel half, and between `KERNBASE+PHYSTOP` and `DEVSPACE` there
is no page table to look in.

`Argv.Lands` says for which sizes of the image, numbers of free pages and lengths of
strings every address that `copyout` looks at has a page table; it is exact.
-/

namespace Xv6.Vm

open Exec

-- its comparisons of sums of words are not to be evaluated
attribute [local irreducible] allocuvm

abbrev MAXARG : Nat := 32

def twoPages : Word := BitVec.ofNat 32 8192

/-- The arguments that `sys_exec` can build from the memory of its caller. -/
structure Argv where
  strings : List (List UInt8)
  few : strings.length ≤ 31
  fits : ∀ arg ∈ strings, arg.length + 1 ≤ KERNBASE

section Stack

variable (layout : Layout) (pgdir : Nat)

def below (sp : Word) (arg : List UInt8) : Word := (sp - BitVec.ofNat 32 (arg.length + 1)) &&& ~~~3

/-- The loop over the arguments: `sp` and the addresses of the strings, unless `exec` goes
to `bad`. -/
def pushArgs : (strings : List (List UInt8)) → (argc : Nat) → (sp : Word) →
    VmM (Option (Word × List Word))
  | [], _, sp => return some (sp, [])
  | arg :: rest, argc, sp => do
    if MAXARG ≤ argc then return none
    else
      let sp := below sp arg
      if ← copyout layout pgdir (arg.length + 2) sp (arg ++ [0]) then
        match ← pushArgs rest (argc + 1) sp with
        | none => return none
        | some (last, addrs) => return some (last, sp :: addrs)
      else return none

def ustack (sp : Word) (addrs : List Word) : List Word :=
  [0xffffffff, BitVec.ofNat 32 addrs.length, sp - BitVec.ofNat 32 ((addrs.length + 1) * 4)] ++
    addrs ++ [0]

/-- The stack phase without the way over `bad`: the new size and `sp`. -/
def pushStack (sz : Word) (argv : Argv) : VmM (Option (Word × Word)) := do
  let sz ← allocuvm layout pgdir (PGROUNDUP sz) (PGROUNDUP sz + twoPages)
  if sz = 0 then return none
  else
    clearpteu pgdir (sz - twoPages)
    match ← pushArgs layout pgdir argv.strings 0 sz with
    | none => return none
    | some (sp, addrs) =>
      let bytes := (ustack sp addrs).flatMap fun word => Bytes.toLE 4 word.toNat
      let sp := sp - BitVec.ofNat 32 ((3 + addrs.length + 1) * 4)
      if ← copyout layout pgdir (bytes.length + 1) sp bytes then return some (sz, sp)
      else return none

def stack (sz : Word) (argv : Argv) : VmM (Option (Word × Word)) := do
  match ← pushStack layout pgdir sz argv with
  | none =>
    freevm layout pgdir
    return none
  | some result => return some result

end Stack

/-! ## When every address has a page table -/

/-- Users may access virtual page `n` of an image of `k` pages; the page below the last one
is the guard. -/
def Open (k : Nat) (lost : List Nat) (n : Nat) : Prop := n < k ∧ n ∉ lost ∧ n + 2 ≠ k

def SpanOpen (k : Nat) (lost : List Nat) (va : Word) (count : Nat) : Prop :=
  ∀ n, pageNumber va ≤ n → n * 4096 < va.toNat + count → Open k lost n

/-- `copyout` looks at the pages of `count` bytes from `va` on up to the first one that users
may not access; they all have page tables. -/
def SpanWalks (k : Nat) (lost : List Nat) (va : Word) (count : Nat) : Prop :=
  ∀ n, pageNumber va ≤ n → n * 4096 < va.toNat + count →
    (∀ n', pageNumber va ≤ n' → n' < n → Open k lost n') → Walkable k lost n

/-- Every address that is looked at while the arguments are pushed has a page table. -/
def PushWalks (k : Nat) (lost : List Nat) : (strings : List (List UInt8)) → (argc : Nat) →
    (sp : Word) → Prop
  | [], argc, sp =>
    SpanWalks k lost (sp - BitVec.ofNat 32 ((3 + argc + 1) * 4)) ((3 + argc + 1) * 4)
  | arg :: rest, argc, sp => SpanWalks k lost (below sp arg) (arg.length + 1) ∧
      (SpanOpen k lost (below sp arg) (arg.length + 1) →
        PushWalks k lost rest (argc + 1) (below sp arg))

/-- Users may access every page that the arguments are pushed to. -/
def PushOpens (k : Nat) (lost : List Nat) : (strings : List (List UInt8)) → (argc : Nat) →
    (sp : Word) → Prop
  | [], argc, sp => SpanOpen k lost (sp - BitVec.ofNat 32 ((3 + argc + 1) * 4)) ((3 + argc + 1) * 4)
  | arg :: rest, argc, sp => SpanOpen k lost (below sp arg) (arg.length + 1) ∧
      PushOpens k lost rest (argc + 1) (below sp arg)

/-- There are pages for the stack and the arguments fit. -/
def Argv.Opens (layout : Layout) (pgdir : Nat) (sz : Word) (argv : Argv) (m : Memory) : Prop :=
  ∀ sz' m', allocuvm layout pgdir (PGROUNDUP sz) (PGROUNDUP sz + twoPages) m =
    .ok (sz', m') → sz' ≠ 0 ∧ PushOpens (pages sz') m'.lost argv.strings 0 sz'

/-- The same for the whole stack phase, once there are pages for the stack. -/
def Argv.Walks (layout : Layout) (pgdir : Nat) (sz : Word) (argv : Argv) (m : Memory) : Prop :=
  ∀ sz' m', allocuvm layout pgdir (PGROUNDUP sz) (PGROUNDUP sz + twoPages) m =
    .ok (sz', m') → sz' ≠ 0 → PushWalks (pages sz') m'.lost argv.strings 0 sz'

theorem Argv.walks_of_returns (argv : Argv) {layout : Layout} {d : Nat} {sz sz' : Word}
    {m m' : Memory}
    (returns : allocuvm layout d (PGROUNDUP sz) (PGROUNDUP sz + twoPages) m = .ok (sz', m')) :
    argv.Walks layout d sz m ↔ (sz' ≠ 0 → PushWalks (pages sz') m'.lost argv.strings 0 sz') := by
  simp [Argv.Walks, returns]

/-- The bytes that the strings take, each at a multiple of four. -/
def stringBytes (strings : List (List UInt8)) (used : Nat) : Nat :=
  strings.foldl (fun used arg => (used + arg.length + 1 + 3) / 4 * 4) used

/-- The arguments fit in one page with their addresses and the frame of `main`. -/
def Argv.FitsOnePage (argv : Argv) : Prop :=
  stringBytes argv.strings 0 + (3 + argv.strings.length + 1) * 4 ≤ PGSIZE

instance (argv : Argv) : Decidable argv.FitsOnePage := by
  unfold Argv.FitsOnePage
  infer_instance

/-- A push that takes `need` bytes below `top`.  If it goes below zero, it comes to the devices or
to the direct mapping, and not between them. -/
def Lands (top need : Nat) : Prop :=
  need ≤ top + (2 ^ 32 - DEVSPACE) ∨ top + (2 ^ 32 - (KERNBASE + PHYSTOP)) < need

/-- Every string lands that is pushed while the strings before it fit in a page. -/
def StringsLand (top : Nat) (strings : List (List UInt8)) (used : Nat) : Prop :=
  ∀ before arg rest, strings = before ++ arg :: rest → stringBytes before used ≤ PGSIZE →
    Lands top (stringBytes (before ++ [arg]) used)

/-- The stack phase stays where there are page tables, for an image of `k` pages: if there are
pages for the stack then its upper page is mapped or the first string does not fit in it, and
the strings land. -/
def Argv.Lands (argv : Argv) (k available : Nat) : Prop :=
  k + 2 < KERNPAGE → Affords k (k + 2) available →
    (growth k (k + 2) ≤ available ∨
      ∃ arg rest, argv.strings = arg :: rest ∧ PGSIZE < stringBytes [arg] 0) ∧
    StringsLand ((k + 2) * PGSIZE) argv.strings 0

/-! ## Copying -/

section Copy

variable {layout : Layout} {own : Nat → Prop} {base : Nat → Page} {g k : Nat}
  {m : Memory} {d n : Nat} {free : List Nat} {va w : Word} {bad : Trap → Prop}

theorem ensures_uva2ka {good : Option Nat → Memory → Prop} :
    (uva2ka d va).Ensures m good bad ↔
      match lookup m.page d (pageNumber va) with
      | none => bad .nullPte
      | some w => good (if present w = true ∧ isUser w = true then some (frame w) else none) m := by
  unfold uva2ka
  rw [ensures_bind, ensures_walkpgdir]
  cases found : table m.page d (pageNumber va / 1024) with
  | none =>
    rw [lookup_eq_none.mpr found]
    rfl
  | some t =>
    rw [lookup_of_table found]
    simp only [Option.map_some, ensures_bind, ensures_get]
    cases present (m.page t (pageNumber va % 1024)) <;>
      cases isUser (m.page t (pageNumber va % 1024)) <;> rfl

theorem Image.open_iff (image : Image layout own base (some g) k m d free) (last : g + 2 = k)
    (small : n < 2 ^ 20) (found : lookup m.page d n = some w) :
    (present w = true ∧ isUser w = true) ↔ Open k m.lost n := by
  unfold Open
  by_cases low : n < KERNPAGE
  · by_cases inside : n < k ∧ n ∉ m.lost
    · obtain ⟨w', found', isPresent, -, user⟩ := image.entry_of_lt inside.1 inside.2
      obtain rfl := Option.some.inj (found.symm.trans found')
      rw [user]
      simp only [isPresent, inside, true_and, not_false_eq_true, ne_eq, Option.some.injEq]
      omega
    · have clear : w = 0 := image.entry_of_not low (fun below => by_contra fun kept =>
        inside ⟨below, kept⟩) found
      subst clear
      exact iff_of_false (by simp) fun isOpen => inside ⟨isOpen.1, isOpen.2.1⟩
  · have bound := image.bound
    have high : KERNPAGE ≤ n := Nat.le_of_not_lt low
    refine iff_of_false (fun both => ?_) fun isOpen => by omega
    cases isFrame : kernelFrame n with
    | none =>
      rw [image.kernel.absent high small isFrame] at found
      cases found
    | some f =>
      obtain ⟨w', found', -, noUser, -⟩ := image.kernel.mapped high small isFrame
      obtain rfl := Option.some.inj (found.symm.trans found')
      rw [noUser] at both
      exact absurd both.2 (by decide)

theorem pageNumber_roundDown (va : Word) : pageNumber (PGROUNDDOWN va) = pageNumber va := by
  rw [pageNumber, pageNumber, toNat_roundDown]
  unfold PGSIZE
  omega

theorem sub_roundDown (va : Word) : (va - PGROUNDDOWN va).toNat = va.toNat % 4096 := by
  have bound := va.isLt
  rw [BitVec.toNat_sub, toNat_roundDown]
  unfold PGSIZE
  omega

theorem roundDown_next {va : Word} (low : pageNumber va < KERNPAGE) :
    PGROUNDDOWN va + BitVec.ofNat 32 PGSIZE = addr (pageNumber va + 1) := by
  have start : PGROUNDDOWN va = addr (pageNumber va) := by
    apply BitVec.eq_of_toNat_eq
    unfold KERNPAGE at low
    rw [toNat_roundDown, toNat_addr (by omega)]
    rfl
  rw [start, addr_succ]

/-- What `copyout` does from an address on: it writes to pages of the image only, succeeds
exactly if users may access all of them and then has written the bytes there, and reads
through a null pointer exactly if it comes to a page without a page table. -/
theorem copyout_spec (fuel : Nat) (bytes : List UInt8) (last : g + 2 = k)
    (image : Image layout own base (some g) k m d free) (enough : bytes.length < fuel)
    (aligned : bytes = [] → va.toNat % 4096 = 0) :
    (copyout layout d fuel va bytes).Ensures m
      (fun ok m' => SpanWalks k m.lost va bytes.length ∧
        (ok = true ↔ SpanOpen k m.lost va bytes.length) ∧
        Image layout own base (some g) k m' d free ∧ m'.lost = m.lost ∧
        (ok = true → Overlaid m.page m'.page d va.toNat bytes))
      (fun _ => ¬SpanWalks k m.lost va bytes.length) := by
  induction fuel generalizing va bytes m with
  | zero => omega
  | succ fuel ih =>
    have small := pageNumber_lt va
    have number : pageNumber va = va.toNat / 4096 := rfl
    unfold copyout
    by_cases empty : bytes = []
    · subst empty
      have nothing : ∀ n, pageNumber va ≤ n → ¬n * 4096 < va.toNat + 0 := by
        have := aligned rfl
        intro n lower
        omega
      rw [if_pos rfl]
      exact ⟨fun n lower upper => absurd upper (nothing n lower),
        iff_of_true rfl fun n lower upper => absurd upper (nothing n lower), image, rfl,
        fun _ => overlaid_nil⟩
    · have positive : 0 < bytes.length := List.length_pos_iff.mpr empty
      rw [if_neg empty]
      simp only
      rw [ensures_bind, ensures_uva2ka, pageNumber_roundDown, sub_roundDown]
      have here : pageNumber va * 4096 < va.toNat + bytes.length := by omega
      cases found : lookup m.page d (pageNumber va) with
      | none =>
        intro walks
        have walkable := walks (pageNumber va) le_rfl here fun n' lower upper => by omega
        rw [← image.walkable_iff small] at walkable
        exact walkable (lookup_eq_none.mp found)
      | some w =>
        have walkable : Walkable k m.lost (pageNumber va) := by
          rw [← image.walkable_iff small, Ne, ← lookup_eq_none, found]
          simp
        have isOpen := image.open_iff last small found
        dsimp only
        by_cases accessible : Open k m.lost (pageNumber va)
        · have bound := image.bound
          have inside := accessible.1
          unfold KERNPAGE at bound
          obtain ⟨w', found', isPresent, grown, -⟩ := image.entry_of_lt accessible.1 accessible.2.1
          obtain rfl := Option.some.inj (found.symm.trans found')
          rw [if_pos (isOpen.mpr accessible)]
          simp only [ensures_bind]
          refine (image.storeBytes_spec grown).mono ?_ (by simp)
          rintro - m' ⟨after, -, lost, stored⟩
          generalize size : min (PGSIZE - va.toNat % 4096) bytes.length = count
          have rest : (bytes.drop count).length = bytes.length - count := List.length_drop
          have next : (addr (pageNumber va + 1)).toNat = (pageNumber va + 1) * 4096 :=
            toNat_addr (by omega)
          have nextPage : pageNumber (addr (pageNumber va + 1)) = pageNumber va + 1 :=
            pageNumber_addr (by omega)
          rw [roundDown_next (by unfold KERNPAGE; omega)]
          -- the bytes after the first page, seen from the first page
          have tail : ∀ n, pageNumber va + 1 ≤ n → (n * 4096 < va.toNat + bytes.length ↔
              n * 4096 < (pageNumber va + 1) * 4096 + (bytes.length - count)) := by
            intro n lower
            unfold PGSIZE at size
            omega
          have walks : SpanWalks k m'.lost (addr (pageNumber va + 1)) (bytes.drop count).length ↔
              SpanWalks k m.lost va bytes.length := by
            unfold SpanWalks
            rw [lost, rest, next, nextPage]
            constructor
            · intro walks n lower upper before
              by_cases first : n = pageNumber va
              · exact first ▸ walkable
              · exact walks n (by omega) ((tail n (by omega)).mp upper)
                  fun n' lower' upper' => before n' (by omega) upper'
            · intro walks n lower upper before
              refine walks n (by omega) ((tail n lower).mpr upper) fun n' lower' upper' => ?_
              by_cases first : n' = pageNumber va
              · exact first ▸ accessible
              · exact before n' (by omega) upper'
          have opens : SpanOpen k m'.lost (addr (pageNumber va + 1)) (bytes.drop count).length ↔
              SpanOpen k m.lost va bytes.length := by
            unfold SpanOpen
            rw [lost, rest, next, nextPage]
            constructor
            · intro opens n lower upper
              by_cases first : n = pageNumber va
              · exact first ▸ accessible
              · exact opens n (by omega) ((tail n (by omega)).mp upper)
            · intro opens n lower upper
              exact opens n (by omega) ((tail n lower).mpr upper)
          refine (ih (bytes.drop count) after ?_ ?_).mono ?_ ?_
          · rw [rest]
            unfold PGSIZE at size
            omega
          · intro _
            rw [next]
            omega
          · rintro ok m'' ⟨walks', ok', after', lost', rest'⟩
            refine ⟨walks.mp walks', ok'.trans opens, after', lost'.trans lost, fun isOk => ?_⟩
            have first : Overlaid m.page m'.page d va.toNat (bytes.take count) := by
              have place : va.toNat = pageNumber va * 4096 + va.toNat % 4096 := by omega
              rw [place, ← size]
              refine stored (by unfold KERNPAGE; omega) found isPresent rfl ?_
              rw [List.length_take]
              unfold PGSIZE
              omega
            rw [← List.take_append_drop count bytes]
            refine first.append ((rest' isOk).congr fun more => ?_)
            rw [next, List.length_take]
            rw [rest] at more
            unfold PGSIZE at size
            omega
          · exact fun _ fails walks' => fails (walks.mpr walks')
        · rw [if_neg (mt isOpen.mp accessible)]
          refine ⟨fun n lower upper before => ?_, iff_of_false (by simp) fun opens => ?_, image,
            rfl, Bool.noConfusion⟩
          · by_cases first : n = pageNumber va
            · exact first ▸ walkable
            · exact absurd (before _ le_rfl (by omega)) accessible
          · exact accessible (opens _ le_rfl here)

end Copy

/-! ## Pushing -/

section Push

variable {layout : Layout} {own : Nat → Prop} {base : Nat → Page} {g k used argc : Nat} {m : Memory}
  {d : Nat} {free lost : List Nat} {sp : Word} {arg : List UInt8}

theorem toNat_below (sp : Word) (fits : arg.length + 1 ≤ KERNBASE) :
    (below sp arg).toNat = (if arg.length + 1 ≤ sp.toNat then sp.toNat - (arg.length + 1)
      else 2 ^ 32 + sp.toNat - (arg.length + 1)) / 4 * 4 := by
  have bound := sp.isLt
  unfold KERNBASE at fits
  have mask : (below sp arg).toNat = (sp - BitVec.ofNat 32 (arg.length + 1)).toNat / 4 * 4 :=
    Word.toNat_clear _ 2
  rw [mask, BitVec.toNat_sub, BitVec.toNat_ofNat]
  congr 2
  split <;> omega

theorem used_of_spanOpen (atLeast : 2 ≤ k) (bound : k ≤ KERNPAGE) (top : sp.toNat + used = k * 4096)
    (onPage : used ≤ 4096) (aligned : used % 4 = 0) (fits : arg.length + 1 ≤ KERNBASE)
    (opens : SpanOpen k lost (below sp arg) (arg.length + 1)) :
    (used + arg.length + 1 + 3) / 4 * 4 ≤ 4096 ∧
      (below sp arg).toNat + (used + arg.length + 1 + 3) / 4 * 4 = k * 4096 := by
  have value := toNat_below sp fits
  have number : pageNumber (below sp arg) = (below sp arg).toNat / 4096 := rfl
  unfold KERNBASE at fits
  unfold KERNPAGE at bound
  split at value
  · -- a string that reaches below the page of the stack goes over the guard
    by_cases deep : 4096 < (used + arg.length + 1 + 3) / 4 * 4
    · have guard := (opens (k - 2) (by omega) (by omega)).2.2
      omega
    · omega
  · have first := (opens _ le_rfl (by omega)).1
    omega

theorem used_of_frameOpen {count : Nat} (atLeast : 2 ≤ k) (bound : k ≤ KERNPAGE)
    (top : sp.toNat + used = k * 4096) (onPage : used ≤ 4096) (few : count ≤ 4096)
    (opens : SpanOpen k lost (sp - BitVec.ofNat 32 count) count) : used + count ≤ 4096 := by
  unfold KERNPAGE at bound
  have value : (sp - BitVec.ofNat 32 count).toNat = sp.toNat - count := by
    rw [BitVec.toNat_sub, BitVec.toNat_ofNat]
    omega
  have number : pageNumber (sp - BitVec.ofNat 32 count) =
      (sp - BitVec.ofNat 32 count).toNat / 4096 := rfl
  by_contra deep
  have guard := (opens (k - 2) (by omega) (by omega)).2.2
  omega

/-- The strings stand below each other from `top` down to `bottom`. -/
def Pushed (page : Nat → Page) (d : Nat) :
    (strings : List (List UInt8)) → (addrs : List Word) → (top bottom : Nat) → Prop
  | [], [], top, bottom => bottom = top
  | arg :: strings, a :: addrs, top, bottom =>
    a.toNat % 4 = 0 ∧ a.toNat + (arg.length + 1) ≤ top ∧ At page d a.toNat (arg ++ [0]) ∧
      Pushed page d strings addrs a.toNat bottom
  | _, _, _, _ => False

theorem Pushed.le {page : Nat → Page} {strings : List (List UInt8)} {addrs : List Word}
    {top bottom : Nat} (pushed : Pushed page d strings addrs top bottom) : bottom ≤ top := by
  fun_induction Pushed page d strings addrs top bottom with
  | case1 => exact pushed.le
  | case2 _ _ _ _ _ _ ih =>
    have := ih pushed.2.2.2
    have := pushed.2.1
    omega
  | case3 => exact pushed.elim

theorem pushArgs_spec (strings : List (List UInt8)) (used : Nat) (last : g + 2 = k)
    (image : Image layout own base (some g) k m d free) (top : sp.toNat + used = k * 4096)
    (onPage : used ≤ 4096) (aligned : used % 4 = 0) (few : argc + strings.length ≤ 31)
    (fits : ∀ arg ∈ strings, arg.length + 1 ≤ KERNBASE) :
    (pushArgs layout d strings argc sp).Ensures m
      (fun result m' => Image layout own base (some g) k m' d free ∧ m'.lost = m.lost ∧
        match result with
        | none => PushWalks k m.lost strings argc sp ∧ ¬PushOpens k m.lost strings argc sp
        | some (sp', addrs) => addrs.length = strings.length ∧
            (PushWalks k m.lost strings argc sp ↔
              PushWalks k m.lost [] (argc + strings.length) sp') ∧
            sp'.toNat + stringBytes strings used = k * 4096 ∧ stringBytes strings used ≤ 4096 ∧
            (PushOpens k m.lost strings argc sp →
              PushOpens k m.lost [] (argc + strings.length) sp') ∧
            Pushed m'.page d strings addrs sp.toNat sp'.toNat ∧
            ∀ a, a / 4096 < KERNPAGE → a < sp'.toNat ∨ sp.toNat ≤ a →
              byteAt m'.page d a = byteAt m.page d a)
      (fun _ => ¬PushWalks k m.lost strings argc sp) := by
  induction strings generalizing m sp argc used with
  | nil => exact ⟨image, rfl, rfl, Iff.rfl, top, onPage, id, rfl, fun _ _ _ => rfl⟩
  | cons arg rest ih =>
    have argFits := fits arg (by simp)
    have length : (arg ++ [0]).length = arg.length + 1 := by simp
    rw [List.length_cons] at few
    unfold pushArgs
    rw [if_neg (by unfold MAXARG; omega)]
    simp only
    have copied : (copyout layout d (arg.length + 2) (below sp arg) (arg ++ [0])).Ensures m _ _ :=
      copyout_spec _ _ last image (by omega) (by simp)
    refine copied.bind ?_ ?_
    · rw [length]
      rintro ok m' ⟨walks, isOpen, after, lost, overlaid⟩
      cases ok with
      | false =>
        have closed : ¬SpanOpen k m.lost (below sp arg) (arg.length + 1) := fun opens =>
          absurd (isOpen.mpr opens) (by decide)
        exact ⟨after, lost, ⟨walks, fun opens => absurd opens closed⟩, fun opens => closed opens.1⟩
      | true =>
        have opens := isOpen.mp rfl
        obtain ⟨onPage', top'⟩ := used_of_spanOpen (by omega) image.bound top onPage aligned
          argFits opens
        have condition : PushWalks k m.lost (arg :: rest) argc sp ↔
            PushWalks k m'.lost rest (argc + 1) (below sp arg) := by
          rw [lost]
          exact ⟨fun all => all.2 opens, fun later => ⟨walks, fun _ => later⟩⟩
        rw [if_pos rfl, condition]
        simp only [ensures_bind]
        refine (ih _ after top' onPage' (by omega) (by omega)
          fun arg' member => fits arg' (by simp [member])).mono ?_ fun _ fails => fails
        rintro result m'' ⟨after', lost', outcome⟩
        cases result with
        | none =>
          rw [lost] at outcome
          exact ⟨after', lost'.trans lost, lost ▸ outcome.1, fun opens => outcome.2 opens.2⟩
        | some found =>
          obtain ⟨count, walks', top'', onPage'', opens', pushed, kept⟩ := outcome
          have lower := pushed.le
          have bound := image.bound
          unfold KERNPAGE at bound
          have written := overlaid rfl
          refine ⟨after', lost'.trans lost, by simp [count], ?_, top'', onPage'', fun opens => ?_,
            ⟨by omega, by omega, ?_, pushed⟩, fun a low outside => ?_⟩
          · rw [walks', lost, List.length_cons, Nat.add_assoc argc, Nat.add_comm 1]
          · rw [lost] at opens'
            rw [List.length_cons, Nat.add_comm rest.length, ← Nat.add_assoc]
            exact opens' opens.2
          · refine (written.at (by rw [length]; unfold KERNBASE; omega)).keep
              fun a lower' upper' => ?_
            rw [length] at upper'
            exact kept a (by unfold KERNPAGE; omega) (.inr lower')
          · rw [kept a low (by omega), written a low, if_neg (by rw [length]; omega)]
    · rw [length]
      exact fun _ fails all => fails all.1

end Push

/-! ## The stack phase -/

section Phase

variable {layout : Layout} {own : Nat → Prop} {base : Nat → Page} {g k : Nat} {m : Memory} {d : Nat}
  {free : List Nat} {sz : Word} {argv : Argv}

theorem clearpteu_spec (image : Image layout own base none k m d free) (inside : g < k)
    (kept : g ∉ m.lost) :
    (clearpteu d (addr g)).Ensures m
      (fun _ m' => Image layout own base (some g) k m' d free ∧ m'.lost = m.lost ∧
        ∀ a, a / 4096 < KERNPAGE → byteAt m'.page d a = byteAt m.page d a)
      (fun _ => False) := by
  have bound := image.bound
  have low : g < KERNPAGE := by omega
  have user : ∀ n, n < KERNPAGE → n < 2 ^ 20 := by
    unfold KERNPAGE
    omega
  have page : pageNumber (addr g) = g := pageNumber_addr (user g low)
  obtain ⟨w, entry, isPresent, grown, -⟩ := image.entry_of_lt inside kept
  have owned : Owns m.page d (.user g) (frame w) := ⟨low, w, entry, isPresent, rfl⟩
  obtain ⟨t, found⟩ : ∃ t, table m.page d (g / 1024) = some t := by
    rw [← Option.ne_none_iff_exists', Ne, ← lookup_eq_none, entry]
    simp
  have word : m.page t (g % 1024) = w := Option.some.inj ((lookup_of_table found).symm.trans entry)
  obtain ⟨presence, noUser, sameFrame⟩ := clear_user w
  have space := image.toSpace.setWord (w := w &&& ~~~PTE_U) (user g low) found fun _ _ _ => by
    rw [sameFrame]
    exact ⟨image.mine owned, image.pool.used owned,
      fun role owned' => image.pool.apart owned' owned⟩
  have entries : ∀ n, n < 2 ^ 20 → lookup (Function.update m.page t
      (Function.update (m.page t) (g % 1024) (w &&& ~~~PTE_U))) d n =
        if n = g then some (w &&& ~~~PTE_U) else lookup m.page d n := fun n small =>
    image.toSpace.lookup_setWord (user g low) found small
  unfold clearpteu
  rw [ensures_bind, ensures_walkpgdir, page, found]
  simp only [Option.map_some, ensures_bind, ensures_get, ensures_setWord, word]
  refine ⟨{ toSpace := space, kernel := image.kernel.frame fun n high small => ?_, bound := bound,
            mapped := fun {n w'} low' found' => ?_, covered := fun {n} inside' kept' => ?_,
            tables := fun {i} small found' => ?_, lost_lt := image.lost_lt,
            apart := fun {p} isGrown => ?_, clean := image.clean }, trivial, fun a below => ?_⟩
  · refine (entries n small).trans (if_neg ?_)
    rintro rfl
    omega
  · have found'' := (entries n (user n low')).symm.trans found'
    by_cases same : n = g
    · subst same
      rw [if_pos rfl] at found''
      cases found''
      exact .inl ⟨presence.trans isPresent, inside, kept, by rw [sameFrame]; exact grown,
        iff_of_false (by rw [noUser]; decide) (by simp)⟩
    · rw [if_neg same] at found''
      rcases image.mapped low' found'' with ⟨isPresent', inside', kept', grown', isUser'⟩ | clear
      · refine .inl ⟨isPresent', inside', kept', grown', isUser'.trans ?_⟩
        simp [Ne.symm same]
      · exact .inr clear
  · refine fun absent => image.covered inside' kept' ?_
    have absent' := (entries n (user n (by omega))).symm.trans absent
    by_cases same : n = g
    · rw [if_pos same] at absent'
      cases absent'
    · rwa [if_neg same] at absent'
  · refine image.tables small fun absent => found' ?_
    exact (image.toSpace.table_setWord (user g low) found).trans absent
  · obtain ⟨isOwn, used, roles⟩ := image.apart isGrown
    refine ⟨isOwn, used, fun role owned' => ?_⟩
    rcases image.toSpace.owns_setWord (user g low) found owned' with ⟨before, -⟩ | ⟨rfl, -⟩
    · exact roles role before
    · exact ⟨g, rfl⟩
  · unfold byteAt
    congr 1
    have index : g / 1024 < 1024 := by
      have := user g low
      omega
    by_cases same : a / 4096 = g
    · rw [same, content_of_lookup entry isPresent, content_of_lookup
        ((entries g (user g low)).trans (if_pos rfl)) (presence.trans isPresent), sameFrame]
      exact congrArg some (Function.update_of_ne
        ((plain_user image.toSpace low entry isPresent).ne_table index found) ..)
    · refine content_congr ((entries _ (user _ below)).trans (if_neg same))
        fun w' found' present' => ?_
      exact Function.update_of_ne
        ((plain_user image.toSpace below found' present').ne_table index found) ..

theorem pages_addr {n : Nat} (small : n < 2 ^ 20) : pages (addr n) = n := by
  rw [pages, toNat_addr small]
  unfold PGSIZE
  omega

theorem addr_ne_zero {n : Nat} (small : n < 2 ^ 20) (positive : 0 < n) : addr n ≠ 0 := by
  intro zero
  have value : (addr n).toNat = n * 4096 := toNat_addr small
  rw [zero] at value
  have : (0 : Word).toNat = 0 := rfl
  omega

/-- Two pages for the stack.  The lower one is not lost: without a page for its page table
there is none for the upper one. -/
theorem stackPages_spec (image : Image layout own base none (pages sz) m d free)
    (small : sz.toNat < KERNBASE) :
    (allocuvm layout d (PGROUNDUP sz) (PGROUNDUP sz + twoPages)).Ensures m
      (fun result m' =>
        (result = 0 ∧ m'.stray = [] ∧ ∃ free', Space layout own base m' d free') ∨
        (result = addr (pages sz + 2) ∧ pages sz + 2 < KERNPAGE ∧ pages sz ∉ m'.lost ∧
          (pages sz + 1 ∉ m'.lost → ∀ a, a < (pages sz + 2) * 4096 → byteAt m'.page d a =
            if a < pages sz * 4096 then byteAt m.page d a else some 0) ∧
          ∃ free', Image layout own base none (pages sz + 2) m' d free'))
      (fun _ => False) := by
  have few : pages sz ≤ KERNPAGE := image.bound
  unfold KERNPAGE at few
  have old : PGROUNDUP sz = addr (pages sz) := roundUp_eq (by omega)
  have new : addr (pages sz) + twoPages = addr (pages sz + 2) := addr_add _ 2
  have start : Image layout own base none (pages (addr (pages sz))) m d free := by
    rwa [pages_addr (by omega)]
  rw [old, new]
  have zeros : (allocuvm layout d (addr (pages sz)) (addr (pages sz + 2))).Ensures m _ _ :=
    allocuvm_content start.toSpace
      (by
        rw [toNat_addr (by omega), toNat_addr (by omega)]
        exact Nat.mul_le_mul_right _ (by omega))
      fun n outside low w found => by
        rw [pages_addr (by omega)] at outside
        rw [image.entry_of_not low (fun inside => by omega) found]
        decide
  rw [pages_addr (by omega), pages_addr (by omega)] at zeros
  refine ((allocuvm_released (fun k m' free' => Image layout own base none k m' d free' ∧
      (pages sz ∈ m'.lost → k = pages sz + 1 ∧ free' = []))
    (fun holds => holds.1.toSpace) ?_ ⟨start, fun isLost => ?_⟩).and zeros).mono ?_
    fun _ stopped => stopped.1
  · rintro k m' mem rest - low ⟨before, noLoss⟩
    refine (before.grow low).mono ?_ fun _ stopped => stopped
    have kept : pages sz ∉ m'.lost := fun isLost => by cases (noLoss isLost).2
    rintro - m'' ⟨-, free', after, ⟨same, -⟩ | ⟨lost, -, -, rfl⟩⟩
    · exact ⟨free', after, fun isLost => absurd (same ▸ isLost) kept⟩
    · refine ⟨[], after, fun isLost => ⟨?_, rfl⟩⟩
      rw [lost, List.mem_cons] at isLost
      rcases isLost with here | before'
      · rw [here]
      · exact absurd before' kept
  · have := image.lost_lt isLost
    omega
  · have value : (addr (pages sz + 2)).toNat = (pages sz + 2) * 4096 := toNat_addr (by omega)
    have value' : (addr (pages sz)).toNat = pages sz * 4096 := toNat_addr (by omega)
    rintro result m' ⟨⟨rfl, below, -, free', after, kept⟩ | ⟨-, less, -⟩ | ⟨rfl, -, rfl⟩ |
      ⟨rfl, -, -, k₀, m₀, free', -, ⟨after, -⟩, released, space⟩, filled⟩
    · rw [pages_addr (by omega)] at after kept
      have low : pages sz + 2 < KERNPAGE := by
        unfold KERNBASE at below
        unfold KERNPAGE
        omega
      refine .inr ⟨rfl, low, fun isLost => ?_, fun mapped a inside => ?_, free', after⟩
      · have := (kept isLost).1
        omega
      · rcases filled with ⟨-, -, -, same⟩ | ⟨-, -, -, absent⟩ | ⟨zero, -⟩
        · exact byteAt_grown low.le same inside
        · obtain ⟨w, found, isPresent, -⟩ := after.entry_of_lt (Nat.lt_succ_self _) mapped
          cases (content_of_lookup found isPresent).symm.trans absent
        · exact absurd zero (addr_ne_zero (by omega) (by omega))
    · omega
    · exact .inl ⟨rfl, image.clean, free, image.toSpace⟩
    · obtain ⟨-, -, stray⟩ := Memory.history_eq.mp released.history
      exact .inl ⟨rfl, stray.trans after.clean, free', space⟩

def StackHeld (layout : Layout) (own : Nat → Prop) (base : Nat → Page) (d : Nat) (argv : Argv)
    (result : Option (Word × Word)) (m : Memory) : Prop :=
  m.stray = [] ∧ (∃ free, Space layout own base m d free) ∧
    ∀ sz sp, result = some (sz, sp) → sz.toNat < KERNBASE ∧ argv.FitsOnePage

/-- How the stack came about: `page` has the strings, `page'` the frame of `main` below them. -/
structure Built (before page page' : Nat → Page) (d k : Nat) (strings : List (List UInt8))
    (addrs : List Word) (sz sp sp' : Word) : Prop where
  size : sz = addr (k + 2)
  count : addrs.length = strings.length
  pushed : Pushed page d strings addrs sz.toNat sp.toNat
  frame : sp'.toNat + (3 + addrs.length + 1) * 4 = sp.toNat
  inside : (k + 1) * 4096 ≤ sp'.toNat
  written : Overlaid page page' d sp'.toNat
    ((ustack sp addrs).flatMap fun word => Bytes.toLE 4 word.toNat)
  kept : ∀ a, a < (k + 1) * 4096 →
    byteAt page d a = if a < k * 4096 then byteAt before d a else some 0

theorem length_ustack (sp : Word) (addrs : List Word) :
    ((ustack sp addrs).flatMap fun word => Bytes.toLE 4 word.toNat).length =
      (3 + addrs.length + 1) * 4 := by
  rw [List.length_flatMap]
  simp [ustack]
  omega

theorem pushStack_spec (image : Image layout own base none (pages sz) m d free)
    (small : sz.toNat < KERNBASE) :
    (pushStack layout d sz argv).Ensures m
      (fun result m' => argv.Walks layout d sz m ∧ StackHeld layout own base d argv result m' ∧
        (argv.Opens layout d sz m → result ≠ none) ∧
          ∀ sz' sp', result = some (sz', sp') → ∃ page addrs sp,
          Built m.page page m'.page d (pages sz) argv.strings addrs sz' sp sp')
      (fun _ => ¬argv.Walks layout d sz m) := by
  obtain ⟨sz', m', returns, room⟩ := (stackPages_spec image small).exists_ok
  have condition := argv.walks_of_returns returns
  unfold pushStack
  rw [ensures_bind_of_ok returns]
  rcases room with ⟨rfl, clean, free', space⟩ | ⟨rfl, low, kept, zeros, free', after⟩
  · rw [if_pos rfl]
    exact ⟨condition.mpr fun nonzero => absurd rfl nonzero, ⟨clean, ⟨free', space⟩, by simp⟩,
      fun opens => absurd rfl (opens _ _ returns).1, by simp⟩
  · unfold KERNPAGE at low
    have number : pages (addr (pages sz + 2)) = pages sz + 2 := pages_addr (by omega)
    have value : (addr (pages sz + 2)).toNat = (pages sz + 2) * 4096 := toNat_addr (by omega)
    have nonzero : addr (pages sz + 2) ≠ 0 := addr_ne_zero (by omega) (by omega)
    have guardPage : addr (pages sz + 2) - twoPages = addr (pages sz) := by
      rw [← addr_add (pages sz) 2]
      exact BitVec.add_sub_cancel _ _
    rw [number] at condition
    have condition' : argv.Walks layout d sz m ↔
        PushWalks (pages sz + 2) m'.lost argv.strings 0 (addr (pages sz + 2)) :=
      condition.trans ⟨fun implies => implies nonzero, fun walks _ => walks⟩
    have isOpen' : argv.Opens layout d sz m →
        PushOpens (pages sz + 2) m'.lost argv.strings 0 (addr (pages sz + 2)) := by
      intro opens
      have := (opens _ _ returns).2
      rwa [number] at this
    rw [if_neg nonzero, guardPage, condition']
    refine (clearpteu_spec after (by omega) kept).bind ?_ (by simp)
    rintro - m₂ ⟨guarded, lost₂, same₂⟩
    rw [← lost₂] at isOpen' ⊢
    refine (pushArgs_spec argv.strings 0 rfl guarded (by omega) (by omega) rfl
      (by have := argv.few; omega) argv.fits).bind ?_ fun _ fails => fails
    rintro result m₃ ⟨pushed, lost₃, outcome⟩
    cases result with
    | none =>
      exact ⟨outcome.1, ⟨pushed.clean, ⟨free', pushed.toSpace⟩, by simp⟩,
        fun opens => absurd (isOpen' opens) outcome.2, by simp⟩
    | some pair =>
      obtain ⟨sp, addrs⟩ := pair
      obtain ⟨count, walks, top, onPage, later, strings, same₃⟩ := outcome
      have few := argv.few
      have length := length_ustack sp addrs
      have final : ∀ {bytes : List UInt8}, bytes.length = (3 + addrs.length + 1) * 4 →
          (copyout layout d (bytes.length + 1)
            (sp - BitVec.ofNat 32 ((3 + addrs.length + 1) * 4)) bytes).Ensures m₃ _ _ :=
        fun {bytes} size => copyout_spec _ bytes rfl pushed (by omega) (by
          rintro rfl
          rw [List.length_nil] at size
          omega)
      rw [walks, Nat.zero_add, ← count, PushWalks, ← lost₃]
      refine (final length).bind ?_ ?_
      · rw [length]
        rintro ok m₄ ⟨walks', isOpen, copied, -, overlaid⟩
        cases ok with
        | false =>
          refine ⟨walks', ⟨copied.clean, ⟨free', copied.toSpace⟩, by simp⟩,
            fun opens => ?_, by simp⟩
          have last := later (isOpen' opens)
          rw [Nat.zero_add, ← count, PushOpens, ← lost₃] at last
          cases isOpen.mpr last
        | true =>
          have fits := used_of_frameOpen (by omega) pushed.bound top onPage (by omega)
            (isOpen.mp rfl)
          have place : (sp - BitVec.ofNat 32 ((3 + addrs.length + 1) * 4)).toNat =
              sp.toNat - (3 + addrs.length + 1) * 4 := by
            rw [BitVec.toNat_sub, BitVec.toNat_ofNat]
            omega
          refine ⟨walks', ⟨copied.clean, ⟨free', copied.toSpace⟩, fun sz₁ sp₁ same => ?_⟩, by simp,
            fun sz₁ sp₁ same => ⟨m₃.page, addrs, sp, ?_⟩⟩
          · cases same
            refine ⟨by rw [value]; unfold KERNBASE; omega, ?_⟩
            unfold Argv.FitsOnePage PGSIZE
            rw [← count]
            exact fits
          · cases same
            have upper : pages sz + 1 ∉ m'.lost := by
              rw [← lost₂, ← lost₃]
              exact (isOpen.mp rfl (pages sz + 1) (by unfold pageNumber; omega) (by omega)).2.1
            refine { size := rfl, count := count, pushed := strings, frame := by omega,
                     inside := by omega, written := overlaid rfl, kept := fun a below => ?_ }
            have low : a / 4096 < KERNPAGE := by
              unfold KERNPAGE
              omega
            have outside : a < sp.toNat := by omega
            have inside : a < (pages sz + 2) * 4096 :=
              Nat.lt_of_lt_of_le below (Nat.mul_le_mul_right _ (by omega))
            rw [same₃ a low (Or.inl outside), same₂ a low, zeros upper a inside]
      · rw [length]
        exact fun _ fails => fails

theorem stack_spec (image : Image layout own base none (pages sz) m d free)
    (small : sz.toNat < KERNBASE) :
    (stack layout d sz argv).Ensures m
      (fun result m' => argv.Walks layout d sz m ∧ m'.stray = [] ∧
        (argv.Opens layout d sz m → result ≠ none) ∧
        match result with
        | none => ∃ free, Arena layout own base m' free
        | some (sz', sp') => sz'.toNat < KERNBASE ∧ argv.FitsOnePage ∧
            (∃ page addrs sp, Built m.page page m'.page d (pages sz) argv.strings addrs
              sz' sp sp') ∧
            ∃ free, Space layout own base m' d free)
      (fun _ => ¬argv.Walks layout d sz m) := by
  unfold stack
  refine (pushStack_spec image small).bind ?_ fun _ fails => fails
  rintro result m' ⟨walks, ⟨clean, ⟨free', space⟩, facts⟩, opens, built⟩
  cases result with
  | none =>
    refine (freevm_spec space).bind ?_ (by simp)
    rintro - m'' ⟨history, free'', arena⟩
    rw [Memory.history_eq] at history
    exact ⟨walks, by rw [history.2.2, clean], opens, free'', arena⟩
  | some pair =>
    obtain ⟨below, fits⟩ := facts pair.1 pair.2 rfl
    exact ⟨walks, clean, opens, below, fits, built _ _ rfl, free', space⟩

theorem stack_decides (argv : Argv) (image : Image layout own base none (pages sz) m d free)
    (small : sz.toNat < KERNBASE) :
    (stack layout d sz argv).Ensures m
      (fun result m' => argv.Walks layout d sz m ∧
          (m'.stray = [] ∧ (¬argv.FitsOnePage → result = none)) ∨
        ¬argv.Walks layout d sz m ∧ ¬(m'.stray = [] ∧ (¬argv.FitsOnePage → result = none)))
      (fun _ => ¬argv.Walks layout d sz m) := by
  refine (stack_spec image small).mono ?_ fun _ fails => fails
  rintro result m' ⟨walks, clean, -, outcome⟩
  refine .inl ⟨walks, clean, fun tooLong => ?_⟩
  cases result with
  | none => rfl
  | some pair => exact absurd outcome.2.1 tooLong

theorem stack_unsound (argv : Argv) (image : Image layout own base none (pages sz) m d free)
    (small : sz.toNat < KERNBASE) (fails : ¬argv.Walks layout d sz m) :
    ¬(stack layout d sz argv).Ensures m
      (fun result m' => m'.stray = [] ∧ (¬argv.FitsOnePage → result = none)) (fun _ => False) :=
  fun sound => fails ((Ensures.iff_of_decides (stack_decides argv image small)).mp sound)

end Phase

/-! ## Where the strings land -/

section Land

variable {k used argc : Nat} {lost : List Nat} {sp : Word} {arg : List UInt8}
  {strings : List (List UInt8)}

/-- The pages of the image have page tables, except perhaps the last one. -/
def LastOnly (k : Nat) (lost : List Nat) : Prop := lost = [] ∨ lost = [k - 1] ∧ k % 1024 = 1

theorem LastOnly.walkable (last : LastOnly k lost) {n : Nat} (bound : k ≤ KERNPAGE)
    (inside : n < k) : Walkable k lost n ↔ n + 1 < k ∨ lost = [] := by
  unfold Walkable
  rw [if_pos (by omega)]
  rcases last with rfl | ⟨rfl, first⟩
  · exact iff_of_true ⟨n, inside, by simp, rfl⟩ (.inr rfl)
  · simp only [List.mem_singleton, List.cons_ne_nil, or_false]
    refine ⟨fun ⟨n', below, kept, same⟩ => by omega, fun below => ⟨n, inside, by omega, rfl⟩⟩

theorem spanWalks_iff (last : LastOnly k lost) (atLeast : 2 ≤ k) (bound : k < KERNPAGE)
    (top : sp.toNat + used = k * 4096) (onPage : used ≤ 4096) (aligned : used % 4 = 0)
    (fits : arg.length + 1 ≤ KERNBASE) :
    SpanWalks k lost (below sp arg) (arg.length + 1) ↔
      ((used + arg.length + 1 + 3) / 4 * 4 ≤ 4096 → lost = []) ∧
        Lands (k * 4096) ((used + arg.length + 1 + 3) / 4 * 4) := by
  have value := toNat_below sp fits
  have number : pageNumber (below sp arg) = (below sp arg).toNat / 4096 := rfl
  have small := pageNumber_lt (below sp arg)
  unfold KERNBASE at fits
  unfold SpanWalks Lands DEVSPACE KERNBASE PHYSTOP
  unfold KERNPAGE at bound
  split at value
  · refine ⟨fun walks => ⟨fun short => ?_, by omega⟩, fun ⟨mapped, _⟩ n lower upper before => ?_⟩
    · have walkable := walks (k - 1) (by omega) (by omega) fun n' lower upper => by omega
      exact ((last.walkable (by unfold KERNPAGE; omega) (by omega)).mp walkable).resolve_left
        (by omega)
    · refine (last.walkable (by unfold KERNPAGE; omega) (by omega)).mpr ?_
      by_cases short : (used + arg.length + 1 + 3) / 4 * 4 ≤ 4096
      · exact .inr (mapped short)
      · -- the guard comes before the last page
        refine .inl (Nat.lt_of_not_le fun far => ?_)
        have := (before (k - 2) (by omega) (by omega)).2.2
        omega
  · have high : ¬pageNumber (below sp arg) < KERNPAGE := by
      unfold KERNPAGE
      omega
    have gap : kernelFrame (pageNumber (below sp arg)) ≠ none ↔
        pageNumber (below sp arg) < 0x8E000 ∨ 0xFE000 ≤ pageNumber (below sp arg) := by
      unfold kernelFrame KERNPAGE PHYSTOP DEVSPACE PGSIZE
      split
      · simp
        omega
      · split
        · simp
          omega
        · simp
          omega
    refine ⟨fun walks => ⟨by omega, ?_⟩, fun ⟨_, lands⟩ n lower upper before => ?_⟩
    · have walkable := walks _ le_rfl (by omega) fun n' lower upper => by omega
      rw [Walkable, if_neg high, gap] at walkable
      omega
    · by_cases first : n = pageNumber (below sp arg)
      · rw [first, Walkable, if_neg high, gap]
        omega
      · have := (before _ le_rfl (by omega)).1
        omega

theorem spanOpen_iff (atLeast : 2 ≤ k) (bound : k < KERNPAGE)
    (top : sp.toNat + used = k * 4096) (onPage : used ≤ 4096) (aligned : used % 4 = 0)
    (fits : arg.length + 1 ≤ KERNBASE) :
    SpanOpen k [] (below sp arg) (arg.length + 1) ↔
      (used + arg.length + 1 + 3) / 4 * 4 ≤ 4096 := by
  refine ⟨fun opens => (used_of_spanOpen atLeast bound.le top onPage aligned fits opens).1,
    fun short n lower upper => ?_⟩
  have value := toNat_below sp fits
  have number : pageNumber (below sp arg) = (below sp arg).toNat / 4096 := rfl
  unfold KERNPAGE at bound
  rw [if_pos (by omega)] at value
  obtain rfl : n = k - 1 := by omega
  exact ⟨by omega, by simp, by omega⟩

theorem le_stringBytes (strings : List (List UInt8)) (used : Nat) :
    used ≤ stringBytes strings used := by
  induction strings generalizing used with
  | nil => exact le_rfl
  | cons arg rest ih =>
    have := ih ((used + arg.length + 1 + 3) / 4 * 4)
    change used ≤ stringBytes rest ((used + arg.length + 1 + 3) / 4 * 4)
    omega

theorem stringsLand_cons {top : Nat} : StringsLand top (arg :: strings) used ↔
    (used ≤ PGSIZE → Lands top ((used + arg.length + 1 + 3) / 4 * 4)) ∧
      StringsLand top strings ((used + arg.length + 1 + 3) / 4 * 4) := by
  refine ⟨fun all => ⟨all [] arg strings rfl, fun before arg' rest split => ?_⟩, ?_⟩
  · exact all (arg :: before) arg' rest (by rw [split, List.cons_append])
  · rintro ⟨first, others⟩ before arg' rest split
    rcases List.cons_eq_append_iff.mp split with ⟨rfl, same⟩ | ⟨before', rfl, same⟩
    · cases same
      exact first
    · exact others before' arg' rest same

theorem stringsLand_of_lt {top : Nat} (full : PGSIZE < used) : StringsLand top strings used :=
  fun before _ _ _ fits => absurd (Nat.le_trans (le_stringBytes before used) fits) (by omega)

theorem pushWalks_iff (strings : List (List UInt8)) (used : Nat) (atLeast : 2 ≤ k)
    (bound : k < KERNPAGE) (top : sp.toNat + used = k * 4096) (onPage : used ≤ 4096)
    (aligned : used % 4 = 0) (few : argc + strings.length ≤ 31)
    (fits : ∀ arg ∈ strings, arg.length + 1 ≤ KERNBASE) :
    PushWalks k [] strings argc sp ↔ StringsLand (k * 4096) strings used := by
  induction strings generalizing used argc sp with
  | nil =>
    refine iff_of_true (fun n _ upper _ => ?_) fun before arg rest split => ?_
    · rw [List.length_nil] at few
      have value : (sp - BitVec.ofNat 32 ((3 + argc + 1) * 4)).toNat =
          sp.toNat - (3 + argc + 1) * 4 := by
        rw [BitVec.toNat_sub, BitVec.toNat_ofNat]
        omega
      exact (LastOnly.walkable (.inl rfl) bound.le (by omega)).mpr (.inr rfl)
    · cases before <;> cases split
  | cons arg rest ih =>
    rw [List.length_cons] at few
    have argFits := fits arg (by simp)
    rw [PushWalks, spanWalks_iff (.inl rfl) atLeast bound top onPage aligned argFits,
      spanOpen_iff atLeast bound top onPage aligned argFits, stringsLand_cons]
    have later : (used + arg.length + 1 + 3) / 4 * 4 ≤ 4096 →
        (PushWalks k [] rest (argc + 1) (below sp arg) ↔
          StringsLand (k * 4096) rest ((used + arg.length + 1 + 3) / 4 * 4)) := fun short =>
      ih _ (used_of_spanOpen atLeast bound.le top onPage aligned argFits
        ((spanOpen_iff atLeast bound top onPage aligned argFits).mpr short)).2 short (by omega)
        (by omega) fun arg' member => fits arg' (by simp [member])
    by_cases short : (used + arg.length + 1 + 3) / 4 * 4 ≤ 4096
    · simp only [short, true_imp_iff, later short, true_and, onPage, PGSIZE]
    · have far : StringsLand (k * 4096) rest ((used + arg.length + 1 + 3) / 4 * 4) :=
        stringsLand_of_lt (by unfold PGSIZE; omega)
      simp only [short, false_imp_iff, true_and, and_true, far, onPage, PGSIZE, true_imp_iff]

/-- Nothing can be pushed to an upper page that is not mapped. -/
theorem pushWalks_starved (strings : List (List UInt8)) (atLeast : 2 ≤ k) (bound : k < KERNPAGE)
    (last : k % 1024 = 1) (fits : ∀ arg ∈ strings, arg.length + 1 ≤ KERNBASE) :
    PushWalks k [k - 1] strings 0 (addr k) ↔
      (∃ arg rest, strings = arg :: rest ∧ PGSIZE < stringBytes [arg] 0) ∧
        StringsLand (k * 4096) strings 0 := by
  have small := bound
  unfold KERNPAGE at small
  have top : (addr k).toNat + 0 = k * 4096 := toNat_addr (by omega)
  cases strings with
  | nil =>
    refine iff_of_false (fun walks => ?_) (by simp)
    have value : (addr k - BitVec.ofNat 32 ((3 + 0 + 1) * 4)).toNat = k * 4096 - 16 := by
      rw [BitVec.toNat_sub, BitVec.toNat_ofNat]
      omega
    have number : pageNumber (addr k - BitVec.ofNat 32 ((3 + 0 + 1) * 4)) =
        (k * 4096 - 16) / 4096 := by
      rw [← value]
      rfl
    have walkable := walks (k - 1) (by omega) (by omega) fun n' lower upper => by omega
    have := (LastOnly.walkable (.inr ⟨rfl, last⟩) bound.le (by omega)).mp walkable
    simp only [List.cons_ne_nil, or_false] at this
    omega
  | cons arg rest =>
    have argFits := fits arg (by simp)
    rw [PushWalks, spanWalks_iff (.inr ⟨rfl, last⟩) atLeast bound top (by omega) rfl argFits,
      stringsLand_cons]
    simp only [List.cons_ne_nil, imp_false, not_le, Nat.zero_le, true_imp_iff, List.cons.injEq]
    constructor
    · rintro ⟨⟨long, lands⟩, -⟩
      exact ⟨⟨arg, rest, ⟨rfl, rfl⟩, long⟩, lands, stringsLand_of_lt long⟩
    · rintro ⟨⟨arg', rest', ⟨rfl, rfl⟩, long⟩, lands, -⟩
      refine ⟨⟨long, lands⟩, fun opens => ?_⟩
      have short := (used_of_spanOpen atLeast bound.le top (by omega) rfl argFits opens).1
      exact absurd (Nat.lt_of_lt_of_le long short) (Nat.lt_irrefl _)

end Land

section Lands

variable {layout : Layout} {own : Nat → Prop} {base : Nat → Page} {m : Memory} {d : Nat}
  {free : List Nat} {sz : Word} {argv : Argv}

/-- How the pages of the stack are allocated, by the number of free pages. -/
theorem stackPages_stocked (image : Image layout own base none (pages sz) m d free)
    (small : sz.toNat < KERNBASE) (whole : free ≠ [] → m.lost = []) :
    (allocuvm layout d (PGROUNDUP sz) (PGROUNDUP sz + twoPages)).Ensures m
      (fun result m' =>
        (result = addr (pages sz + 2) ∧ pages sz + 2 < KERNPAGE ∧
          (growth (pages sz) (pages sz + 2) ≤ free.length ∧ m'.lost = [] ∨
            Starves (pages sz) (pages sz + 2) free.length ∧ m'.lost = [pages sz + 1])) ∨
        result = 0 ∧ ¬(pages sz + 2 < KERNPAGE ∧
          Affords (pages sz) (pages sz + 2) free.length))
      (fun _ => False) := by
  have few : pages sz ≤ KERNPAGE := image.bound
  unfold KERNPAGE at few
  have old : PGROUNDUP sz = addr (pages sz) := roundUp_eq (by omega)
  have new : addr (pages sz) + twoPages = addr (pages sz + 2) := addr_add _ 2
  have value : (addr (pages sz + 2)).toNat = (pages sz + 2) * 4096 := toNat_addr (by omega)
  have value' : (addr (pages sz)).toNat = pages sz * 4096 := toNat_addr (by omega)
  have start : Image layout own base none (pages (addr (pages sz))) m d free := by
    rwa [pages_addr (by omega)]
  have stocked : Stocked free m (pages sz) (pages (addr (pages sz))) m free := by
    rw [pages_addr (by omega)]
    exact Stocked.init m _ free
  rw [old, new]
  refine (stocked.allocuvm_spec start whole).mono ?_ fun _ stopped => stopped
  rintro result m' (⟨below, isMax, free', -, after⟩ | ⟨rfl, -, -, short⟩)
  · obtain rfl : result = addr (pages sz + 2) := BitVec.eq_of_toNat_eq (by omega)
    rw [pages_addr (by omega)] at after
    have grows : free ≠ [] := by
      rintro rfl
      have := after.affords
      unfold Affords Starves growth at this
      rw [List.length_nil] at this
      omega
    refine .inl ⟨rfl, by unfold KERNPAGE; unfold KERNBASE at below; omega, ?_⟩
    rcases after.lost with ⟨room, same⟩ | ⟨starves, lost⟩
    · exact .inl ⟨room, same.trans (whole grows)⟩
    · exact .inr ⟨starves, by rw [lost, whole grows]; rfl⟩
  · refine .inr ⟨rfl, fun ⟨low, affords⟩ => ?_⟩
    rw [pages_addr (by omega)] at short
    unfold KERNPAGE at low
    rcases short with high | ⟨-, short⟩
    · unfold KERNBASE at high
      omega
    · exact short affords

theorem walks_iff (image : Image layout own base none (pages sz) m d free)
    (small : sz.toNat < KERNBASE) (whole : free ≠ [] → m.lost = []) :
    argv.Walks layout d sz m ↔ argv.Lands (pages sz) free.length := by
  obtain ⟨sz', m', returns, outcome⟩ := (stackPages_stocked image small whole).exists_ok
  rw [argv.walks_of_returns returns, Argv.Lands]
  rcases outcome with ⟨rfl, low, room⟩ | ⟨rfl, short⟩
  · have few : pages sz + 2 < 2 ^ 20 := by
      unfold KERNPAGE at low
      omega
    have nonzero : addr (pages sz + 2) ≠ 0 := addr_ne_zero few (by omega)
    have top : (addr (pages sz + 2)).toNat + 0 = (pages sz + 2) * 4096 := toNat_addr few
    simp only [ne_eq, nonzero, not_false_eq_true, true_imp_iff, low, pages_addr few]
    rcases room with ⟨room, lost⟩ | ⟨starves, lost⟩
    · have walks : PushWalks _ [] argv.strings 0 _ ↔ _ :=
        pushWalks_iff argv.strings 0 (by omega) low top (by omega) rfl
          (by have := argv.few; omega) argv.fits
      rw [lost, walks]
      exact ⟨fun lands _ => ⟨.inl room, lands⟩, fun lands => (lands (.inl room)).2⟩
    · have walks := pushWalks_starved argv.strings (by omega) low starves.2 argv.fits
      rw [show pages sz + 2 - 1 = pages sz + 1 from rfl] at walks
      have tight : ¬growth (pages sz) (pages sz + 2) ≤ free.length := by
        have := starves.1
        omega
      rw [lost, walks]
      exact ⟨fun lands _ => ⟨.inr lands.1, lands.2⟩,
        fun lands => ⟨(lands (.inr starves)).1.resolve_left tight, (lands (.inr starves)).2⟩⟩
  · exact iff_of_true (fun nonzero => absurd rfl nonzero) fun low affords =>
      absurd ⟨low, affords⟩ short

end Lands

/-! ## Arguments are copied soundly exactly if they land where there are page tables -/

/-- After an image of any size has been loaded, the stack phase of `exec` does not read through
a null pointer and does not panic, writes to user pages of the image only, and returns -1 if
the arguments do not fit the page of the stack, exactly if the strings land where there are
page tables.  As `load` leaves them, pages have been lost only if none is free. -/
theorem stack_sound_iff_lands (layout : Layout) (own : Nat → Prop) (base : Nat → Page) (m : Memory)
    (d : Nat) (free : List Nat) (sz : Word) (argv : Argv)
    (image : Image layout own base none (pages sz) m d free) (small : sz.toNat < KERNBASE)
    (whole : free ≠ [] → m.lost = []) :
    (stack layout d sz argv).Ensures m
      (fun result m' => m'.stray = [] ∧ (¬argv.FitsOnePage → result = none)) (fun _ => False) ↔
      argv.Lands (pages sz) free.length := by
  rw [← walks_iff image small whole]
  exact Ensures.iff_of_decides (stack_decides argv image small)

section Arguments

variable {layout : Layout} {own : Nat → Prop} {base : Nat → Page} {m : Memory} {d : Nat}
  {free : List Nat} {argv : Argv}

theorem opens_of_pushOpens (image : Image layout own base none 0 m d free) (whole : m.lost = [])
    (enough : 4 ≤ free.length) (opens : PushOpens 2 [] argv.strings 0 (addr 2)) :
    argv.Opens layout d 0 m := by
  have start : Image layout own base none (pages 0) m d free := image
  obtain ⟨sz, m', returns, outcome⟩ :=
    (stackPages_stocked start (by decide) fun _ => whole).exists_ok
  have zero : pages 0 = 0 := rfl
  have two : pages (addr 2) = 2 := pages_addr (by omega)
  intro sz' m'' same
  rw [returns] at same
  cases same
  rw [zero] at outcome
  have need : growth 0 (0 + 2) = 3 := rfl
  rcases outcome with ⟨rfl, -, ⟨-, lost⟩ | ⟨starves, -⟩⟩ | ⟨-, short⟩
  · rw [lost]
    exact ⟨addr_ne_zero (by omega) (by omega), two.symm ▸ opens⟩
  · have := starves.1
    omega
  · exact absurd ⟨by decide, .inl (by omega)⟩ short

/-- One short argument. -/
def shortArgv : Argv where
  strings := [[97]]
  few := by decide
  fits := by decide

theorem shortArgv_lands (k available : Nat) (room : growth k (k + 2) ≤ available) :
    shortArgv.Lands k available := by
  refine fun _ _ => ⟨.inl room, stringsLand_cons.mpr ⟨fun _ => .inl ?_, fun before _ _ split => ?_⟩⟩
  · exact Nat.le_trans (by decide : _ ≤ 2 ^ 32 - DEVSPACE) (Nat.le_add_left _ _)
  · cases before <;> cases split

/-- A string of 64 megabytes. -/
def longArgv : Argv where
  strings := [List.replicate 0x4001fff 97]
  few := by
    rw [List.length_singleton]
    decide
  fits := by
    intro arg member
    rw [List.mem_singleton.mp member, List.length_replicate]
    decide

theorem longArgv_not_lands (available : Nat) (room : 3 ≤ available) :
    ¬longArgv.Lands 0 available := by
  intro lands
  have strings := (lands (by decide) (.inl room)).2
  rw [longArgv, stringsLand_cons, List.length_replicate] at strings
  exact absurd (strings.1 (Nat.zero_le _)) (by unfold Lands; decide)

end Arguments

/-- The theorem at a machine with all its memory free, an empty image and a short argument. -/
theorem stack_sound_short : ∃ m d free own base,
    Image typicalLayout own base none (pages 0) m d free ∧
      (stack typicalLayout d 0 shortArgv).Ensures m
        (fun result m' => m'.stray = [] ∧ (¬shortArgv.FitsOnePage → result = none))
        (fun _ => False) := by
  obtain ⟨m, free, list, enough⟩ := exists_freeList
  obtain ⟨d, m', free', -, image, lost, left⟩ := setupkvm_enough list enough
  exact ⟨m', d, free', _, _, image, (stack_sound_iff_lands typicalLayout _ _ m' d free' 0 shortArgv
    image (by decide) fun _ => lost).mpr (shortArgv_lands _ _ (Nat.le_trans (by decide) left))⟩

/-- A long string makes `copyout` look where there is no page table. -/
theorem stack_long_unsound : ∃ m d free own base,
    Image typicalLayout own base none (pages 0) m d free ∧
      ¬(stack typicalLayout d 0 longArgv).Ensures m
        (fun result m' => m'.stray = [] ∧ (¬longArgv.FitsOnePage → result = none))
        (fun _ => False) := by
  obtain ⟨m, free, list, enough⟩ := exists_freeList
  obtain ⟨d, m', free', -, image, lost, left⟩ := setupkvm_enough list enough
  refine ⟨m', d, free', _, _, image, stack_unsound longArgv image (by decide) ?_⟩
  have empty : Image typicalLayout _ _ none (pages 0) m' d free' := image
  rw [walks_iff empty (by decide) fun _ => lost]
  exact longArgv_not_lands _ (by omega)

end Xv6.Vm
