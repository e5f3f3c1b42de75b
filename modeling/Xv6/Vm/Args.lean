import Xv6.Vm.Stack

/-!
# The arguments of a program

What `main` finds above its stack pointer: `argc`, `argv`, the array of pointers and the strings
they point to.  Each is read through the new directory.
-/

namespace Xv6.Vm

open Exec

-- Elaboration would otherwise run them.
attribute [local irreducible] stack allocuvm

/-- Where the strings stand and how many bytes they take. -/
def stringObjects (strings : List (List UInt8)) (addrs : List Word) : List (Nat × Nat) :=
  List.zipWith (fun arg a => (a.toNat, arg.length + 1)) strings addrs

/-- The objects on the stack: `argc`, `argv`, the array and the strings. -/
def stackObjects (sp array : Nat) (strings : List (List UInt8)) (addrs : List Word) :
    List (Nat × Nat) :=
  (sp + 4, 4) :: (sp + 8, 4) :: (array, 4 * (strings.length + 1)) :: stringObjects strings addrs

def Separate (first second : Nat × Nat) : Prop :=
  first.1 + first.2 ≤ second.1 ∨ second.1 + second.2 ≤ first.1

/-- The stack of a program that starts at `sp` with these arguments. -/
structure Frame (page : Nat → Page) (d : Nat) (sz sp : Word) (strings : List (List UInt8))
    (array : Nat) (addrs : List Word) : Prop where
  argc : At page d (sp.toNat + 4) (Bytes.toLE 4 strings.length)
  argv : At page d (sp.toNat + 8) (Bytes.toLE 4 array)
  count : addrs.length = strings.length
  pointers : ∀ {i : Nat} {a : Word}, addrs[i]? = some a →
    At page d (array + 4 * i) (Bytes.toLE 4 a.toNat)
  null : At page d (array + 4 * strings.length) (Bytes.toLE 4 0)
  aligned : ∀ a ∈ addrs, a.toNat % 4 = 0
  string : ∀ {i : Nat} {a : Word} {arg : List UInt8}, addrs[i]? = some a → strings[i]? = some arg →
    At page d a.toNat (arg ++ [0])
  apart : (stackObjects sp.toNat array strings addrs).Pairwise Separate
  inside : ∀ object ∈ stackObjects sp.toNat array strings addrs,
    sz.toNat - 4096 ≤ object.1 ∧ object.1 + object.2 ≤ sz.toNat

section Pushed

variable {page : Nat → Page} {d top bottom : Nat} {strings : List (List UInt8)} {addrs : List Word}

theorem Pushed.aligned (pushed : Pushed page d strings addrs top bottom) :
    ∀ a ∈ addrs, a.toNat % 4 = 0 := by
  fun_induction Pushed page d strings addrs top bottom with
  | case1 => simp
  | case2 _ _ _ _ _ _ ih =>
    rw [List.forall_mem_cons]
    exact ⟨pushed.1, ih pushed.2.2.2⟩
  | case3 => exact pushed.elim

theorem Pushed.at (pushed : Pushed page d strings addrs top bottom) {i : Nat} {a : Word}
    {arg : List UInt8} (pointer : addrs[i]? = some a) (isArg : strings[i]? = some arg) :
    At page d a.toNat (arg ++ [0]) := by
  fun_induction Pushed page d strings addrs top bottom generalizing i with
  | case1 => simp at pointer
  | case2 _ _ _ _ _ _ ih =>
    cases i with
    | zero =>
      cases pointer
      cases isArg
      exact pushed.2.2.1
    | succ i => exact ih pushed.2.2.2 pointer isArg
  | case3 => exact pushed.elim

theorem Pushed.between (pushed : Pushed page d strings addrs top bottom) :
    ∀ object ∈ stringObjects strings addrs, bottom ≤ object.1 ∧ object.1 + object.2 ≤ top := by
  fun_induction Pushed page d strings addrs top bottom with
  | case1 => simp [stringObjects]
  | case2 _ _ _ _ _ _ ih =>
    obtain ⟨-, fits, -, rest⟩ := pushed
    have lower := rest.le
    rw [stringObjects, List.zipWith_cons_cons, List.forall_mem_cons]
    refine ⟨⟨lower, fits⟩, fun object member => ?_⟩
    have := ih rest object member
    omega
  | case3 => exact pushed.elim

theorem Pushed.apart (pushed : Pushed page d strings addrs top bottom) :
    (stringObjects strings addrs).Pairwise Separate := by
  fun_induction Pushed page d strings addrs top bottom with
  | case1 => exact .nil
  | case2 _ _ _ _ _ _ ih =>
    obtain ⟨-, -, -, rest⟩ := pushed
    exact .cons (fun object member => .inr (rest.between object member).2) (ih rest)
  | case3 => exact pushed.elim

end Pushed

section Built

variable {before page page' : Nat → Page} {d k : Nat} {strings : List (List UInt8)}
  {addrs : List Word} {sz sp sp' : Word}

theorem Built.above (built : Built before page page' d k strings addrs sz sp sp') {a : Nat}
    (low : a / 4096 < KERNPAGE) (upper : sp.toNat ≤ a) : byteAt page' d a = byteAt page d a := by
  have frame := built.frame
  rw [built.written a low, if_neg (by rw [length_ustack]; omega)]

theorem Built.word (built : Built before page page' d k strings addrs sz sp sp')
    (low : sp.toNat ≤ KERNBASE) {i : Nat} {w : Word} (found : (ustack sp addrs)[i]? = some w) :
    At page' d (sp'.toNat + 4 * i) (Bytes.toLE 4 w.toNat) := by
  obtain ⟨inside, rfl⟩ := List.getElem?_eq_some_iff.mp found
  have whole := built.written.at (by rw [length_ustack, built.frame]; exact low)
  have part := whole.part (4 * i) 4
  have words :
      ((((ustack sp addrs).map BitVec.toNat).flatMap (Bytes.toLE 4)).drop (4 * i)).take 4 = _ :=
    Bytes.flatMap_toLE_getElem _ i (by rwa [List.length_map])
  rw [List.flatMap_map, List.getElem_map] at words
  rwa [words] at part

theorem Built.decodes (built : Built before page page' d k strings addrs sz sp sp')
    (few : strings.length ≤ 31) (low : k + 2 ≤ KERNPAGE) :
    Frame page' d sz sp' strings (sp'.toNat + 12) addrs := by
  unfold KERNPAGE at low
  have count := built.count
  have frame := built.frame
  have inside := built.inside
  have order := built.pushed.le
  have size : sz.toNat = (k + 2) * 4096 := by rw [built.size]; exact toNat_addr (by omega)
  have word : ∀ {i w}, (ustack sp addrs)[i]? = some w →
      At page' d (sp'.toNat + 4 * i) (Bytes.toLE 4 w.toNat) :=
    fun found => built.word (by unfold KERNBASE; omega) found
  have between := built.pushed.between
  refine { argc := ?_, argv := ?_, count := count, pointers := fun {i a} pointer => ?_, null := ?_,
           aligned := built.pushed.aligned, string := fun {i a arg} pointer isArg => ?_,
           apart := ?_, inside := ?_ }
  · have : At page' d (sp'.toNat + 4) (Bytes.toLE 4 (BitVec.ofNat 32 addrs.length).toNat) :=
      word (i := 1) rfl
    rwa [BitVec.toNat_ofNat, count, Nat.mod_eq_of_lt (by omega)] at this
  · have : At page' d (sp'.toNat + 8)
        (Bytes.toLE 4 (sp - BitVec.ofNat 32 ((addrs.length + 1) * 4)).toNat) := word (i := 2) rfl
    have value : (sp - BitVec.ofNat 32 ((addrs.length + 1) * 4)).toNat = sp'.toNat + 12 := by
      rw [BitVec.toNat_sub, BitVec.toNat_ofNat]
      omega
    rwa [value] at this
  · have found : (ustack sp addrs)[3 + i]? = some a := by
      obtain ⟨bound, -⟩ := List.getElem?_eq_some_iff.mp pointer
      rw [ustack, List.append_assoc, List.getElem?_append_right (by simp),
        List.getElem?_append_left (by simpa using bound)]
      simpa using pointer
    have := word found
    rwa [show sp'.toNat + 4 * (3 + i) = sp'.toNat + 12 + 4 * i by omega] at this
  · have found : (ustack sp addrs)[3 + strings.length]? = some 0 := by
      rw [← count, Nat.add_comm]
      simp [ustack]
    have := word found
    rwa [show sp'.toNat + 4 * (3 + strings.length) = sp'.toNat + 12 + 4 * strings.length by omega]
      at this
  · refine (built.pushed.at pointer isArg).keep fun a' lower upper => ?_
    have place : (a.toNat, arg.length + 1) ∈ stringObjects strings addrs := by
      refine List.mem_iff_getElem?.mpr ⟨i, ?_⟩
      rw [stringObjects, List.getElem?_zipWith, pointer, isArg]
    have bounds := between _ place
    rw [List.length_append, List.length_singleton] at upper
    exact built.above (by unfold KERNPAGE; omega) (by omega)
  · unfold stackObjects
    simp only [List.pairwise_cons, List.mem_cons, forall_eq_or_imp]
    refine ⟨⟨.inl (by omega), .inl (by omega), fun object member => .inl ?_⟩,
      ⟨.inl (by omega), fun object member => .inl ?_⟩, fun object member => .inl ?_,
      built.pushed.apart⟩
    all_goals
      have := between object member
      dsimp only
      omega
  · unfold stackObjects
    simp only [List.mem_cons, forall_eq_or_imp]
    refine ⟨⟨by omega, by omega⟩, ⟨by omega, by omega⟩, ⟨by omega, by omega⟩,
      fun object member => ?_⟩
    have := between object member
    omega

theorem Built.below (built : Built before page page' d k strings addrs sz sp sp') {a : Nat}
    (low : k + 2 ≤ KERNPAGE) (below : a < (k + 1) * 4096) :
    byteAt page' d a = if a < k * 4096 then byteAt before d a else some 0 := by
  have inside := built.inside
  rw [built.written a (by omega), if_neg (by omega), built.kept a below]

end Built

theorem stack_built {layout : Layout} {own : Nat → Prop} {base : Nat → Page} {m : Memory} {d : Nat}
    {free : List Nat} {sz : Word} (argv : Argv)
    (image : Image layout own base none (pages sz) m d free) (small : sz.toNat < KERNBASE) :
    (stack layout d sz argv).Ensures m
      (fun result m' => (argv.Opens layout d sz m → result ≠ none) ∧
        ∀ sz' sp', result = some (sz', sp') → sz'.toNat < KERNBASE ∧ ∃ page addrs sp,
          Built m.page page m'.page d (pages sz) argv.strings addrs sz' sp sp')
      (fun _ => ¬argv.Walks layout d sz m) := by
  refine (stack_spec image small).mono ?_ fun _ fails => fails
  rintro result m' ⟨-, -, opens, outcome⟩
  refine ⟨opens, fun sz' sp' returned => ?_⟩
  subst returned
  exact ⟨outcome.1, outcome.2.2.1⟩

/-- If `exec` succeeds, the stack decodes to its arguments: `argc` and `argv` stand above the
stack pointer, `argv` points to an array of `argc` aligned pointers and a null pointer, these
point to the strings, and all of that lies in the page of the stack without overlapping.  Below
that page is the image as it was loaded, with a page of zeros after it. -/
theorem stack_decodes (layout : Layout) (own : Nat → Prop) (base : Nat → Page) (m m' : Memory)
    (d : Nat) (free : List Nat) (sz sz' sp : Word) (argv : Argv)
    (image : Image layout own base none (pages sz) m d free) (small : sz.toNat < KERNBASE)
    (returns : stack layout d sz argv m = .ok (some (sz', sp), m')) :
    (∃ array addrs, Frame m'.page d sz' sp argv.strings array addrs) ∧
      ∀ a, a < sz'.toNat - 4096 → byteAt m'.page d a =
        if a < pages sz * 4096 then byteAt m.page d a else some 0 := by
  obtain ⟨below, page, addrs, sp₀, built⟩ :=
    ((stack_built argv image small).of_ok returns).2 sz' sp rfl
  have bound := image.bound
  unfold KERNPAGE at bound
  have size : sz'.toNat = (pages sz + 2) * 4096 := by rw [built.size]; exact toNat_addr (by omega)
  have low : pages sz + 2 ≤ KERNPAGE := by
    unfold KERNBASE at below
    unfold KERNPAGE
    omega
  refine ⟨⟨_, addrs, built.decodes argv.few low⟩, fun a inside => built.below low ?_⟩
  omega

theorem shortArgv_opens : PushOpens 2 [] shortArgv.strings 0 (addr 2) := by
  have near : ∀ (va : Word) (count : Nat), 4096 ≤ va.toNat → va.toNat + count ≤ 8192 →
      SpanOpen 2 [] va count := by
    intro va count lower upper n first last
    unfold pageNumber at first
    exact ⟨by omega, by simp, by omega⟩
  exact ⟨near _ _ (by decide) (by decide), near _ _ (by decide) (by decide)⟩

/-- The theorem at a run with one short argument. -/
theorem stack_decodes_short : ∃ m d sz sp m',
    stack typicalLayout d 0 shortArgv m = .ok (some (sz, sp), m') ∧
      ∃ array addrs, Frame m'.page d sz sp [[97]] array addrs := by
  obtain ⟨m, free, list, enough⟩ := exists_freeList
  obtain ⟨d, m', free', -, image, lost, left⟩ := setupkvm_enough list enough
  have small : (0 : Word).toNat < KERNBASE := by decide
  have start : Image typicalLayout _ _ none (pages 0) m' d free' := image
  have walks : shortArgv.Walks typicalLayout d 0 m' :=
    (walks_iff start small fun _ => lost).mpr (shortArgv_lands _ _ (Nat.le_trans (by decide) left))
  have opens : shortArgv.Opens typicalLayout d 0 m' :=
    opens_of_pushOpens image lost left shortArgv_opens
  obtain ⟨result, m'', returns, succeeds, -⟩ := ((stack_built shortArgv start small).mono
    (fun _ _ outcome => outcome) fun _ fails => fails walks).exists_ok
  obtain ⟨⟨sz, sp⟩, rfl⟩ := Option.ne_none_iff_exists'.mp (succeeds opens)
  exact ⟨m', d, sz, sp, m'', returns, (stack_decodes _ _ _ m' m'' d free' 0 sz sp shortArgv start
    small returns).1⟩

end Xv6.Vm
