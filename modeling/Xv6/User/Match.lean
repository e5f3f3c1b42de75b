import Xv6.User.Grep

/-!
# What a pattern means

A pattern is read from left to right as a list of items.  The matcher of `grep.c`, which backs
up over the lengths of a repetition, finds a match exactly if some part of the text has the
form that the items describe.
-/

namespace Xv6.Grep

inductive Item where
  /-- zero or more occurrences of `c`, of any characters if it is a dot -/
  | star (c : UInt8)
  | any
  | char (c : UInt8)
  | eol

def Item.single (c : UInt8) : Item := if c = dot then .any else .char c

/-- The items of a pattern without a leading caret. -/
def items : List UInt8 → List Item
  | [] => []
  | [c] => [if c = dollar then .eol else .single c]
  | c :: c' :: re => if c' = star then .star c :: items re else .single c :: items (c' :: re)

/-- The text `mid` has the form of the items, where `after` follows it. -/
def Denotes : List Item → (mid after : List UInt8) → Prop
  | [], mid, _ => mid = []
  | .star c :: rest, mid, after =>
    ∃ run mid', mid = run ++ mid' ∧ (∀ t ∈ run, t = c ∨ c = dot) ∧ Denotes rest mid' after
  | .any :: rest, mid, after => ∃ t mid', mid = t :: mid' ∧ Denotes rest mid' after
  | .char c :: rest, mid, after => ∃ mid', mid = c :: mid' ∧ Denotes rest mid' after
  | .eol :: rest, mid, after => mid = [] ∧ after = [] ∧ Denotes rest mid after

/-- Some part of the text has the form of the pattern; after a leading caret it is the first. -/
def Matches (re text : List UInt8) : Prop :=
  ∃ before mid after, text = before ++ (mid ++ after) ∧
    if re.head? = some caret then before = [] ∧ Denotes (items re.tail) mid after
    else Denotes (items re) mid after

def Starts (items : List Item) (text : List UInt8) : Prop :=
  ∃ mid after, text = mid ++ after ∧ Denotes items mid after

theorem starts_nil (text : List UInt8) : Starts [] text := ⟨[], text, rfl, rfl⟩

theorem starts_eol {text : List UInt8} : Starts [.eol] text ↔ text = [] := by
  constructor
  · rintro ⟨mid, after, rfl, rfl, rfl, -⟩
    rfl
  · rintro rfl
    exact ⟨[], [], rfl, rfl, rfl, rfl⟩

theorem not_starts_single_nil (c : UInt8) (rest : List Item) : ¬Starts (.single c :: rest) [] := by
  rintro ⟨mid, after, split, denotes⟩
  obtain ⟨rfl, rfl⟩ := List.nil_eq_append_iff.mp split
  unfold Item.single at denotes
  split at denotes
  · obtain ⟨t, mid', empty, -⟩ := denotes
    cases empty
  · obtain ⟨mid', empty, -⟩ := denotes
    cases empty

theorem starts_single_cons {c t : UInt8} {rest : List Item} {text : List UInt8} :
    Starts (.single c :: rest) (t :: text) ↔ (c = dot ∨ c = t) ∧ Starts rest text := by
  unfold Item.single
  constructor
  · rintro ⟨mid, after, split, denotes⟩
    split at denotes
    next isDot =>
      obtain ⟨t', mid', rfl, denotes'⟩ := denotes
      cases split
      exact ⟨.inl isDot, mid', after, rfl, denotes'⟩
    · obtain ⟨mid', rfl, denotes'⟩ := denotes
      cases split
      exact ⟨.inr rfl, mid', after, rfl, denotes'⟩
  · rintro ⟨same, mid, after, rfl, denotes⟩
    refine ⟨t :: mid, after, rfl, ?_⟩
    split
    · exact ⟨t, mid, rfl, denotes⟩
    next notDot =>
      obtain rfl := same.resolve_left notDot
      exact ⟨mid, rfl, denotes⟩

theorem starts_star {c : UInt8} {rest : List Item} {text : List UInt8} :
    Starts (.star c :: rest) text ↔
      ∃ run text', text = run ++ text' ∧ (∀ t ∈ run, t = c ∨ c = dot) ∧ Starts rest text' := by
  constructor
  · rintro ⟨mid, after, rfl, run, mid', rfl, all, denotes⟩
    exact ⟨run, mid' ++ after, List.append_assoc .., all, mid', after, rfl, denotes⟩
  · rintro ⟨run, text', rfl, all, mid, after, rfl, denotes⟩
    exact ⟨run ++ mid, after, (List.append_assoc ..).symm, run, mid, rfl, all, denotes⟩

theorem matchstar_iff {c : UInt8} {here : List UInt8 → Bool} {text : List UInt8} :
    matchstar c here text = true ↔
      ∃ run text', text = run ++ text' ∧ (∀ t ∈ run, t = c ∨ c = dot) ∧ here text' = true := by
  induction text with
  | nil =>
    constructor
    · exact fun found => ⟨[], [], rfl, by simp, found⟩
    · rintro ⟨run, text', split, -, found⟩
      obtain ⟨-, rfl⟩ := List.nil_eq_append_iff.mp split
      exact found
  | cons t text ih =>
    simp only [matchstar, Bool.or_eq_true, Bool.and_eq_true, beq_iff_eq, ih]
    constructor
    · rintro (found | ⟨first, run, text', rfl, all, found⟩)
      · exact ⟨[], t :: text, rfl, by simp, found⟩
      · exact ⟨t :: run, text', rfl, by simpa using ⟨first, all⟩, found⟩
    · rintro ⟨run, text', split, all, found⟩
      cases run with
      | nil =>
        obtain rfl := split
        exact .inl found
      | cons t' run =>
        cases split
        rw [List.forall_mem_cons] at all
        exact .inr ⟨all.1, run, text', rfl, all.2, found⟩

theorem matchhere_iff (re text : List UInt8) :
    matchhere re text = true ↔ Starts (items re) text := by
  fun_induction items re generalizing text with
  | case1 => exact iff_of_true rfl (starts_nil text)
  | case2 c =>
    unfold matchhere
    split
    · rw [starts_eol, List.isEmpty_iff]
    · cases text with
      | nil => exact iff_of_false (by simp) (not_starts_single_nil c [])
      | cons t text =>
        rw [starts_single_cons]
        simp [matchhere, starts_nil]
  | case3 c re ih =>
    unfold matchhere
    rw [if_pos rfl, starts_star, matchstar_iff]
    simp only [ih]
  | case4 c c' re notStar ih =>
    unfold matchhere
    rw [if_neg notStar]
    cases text with
    | nil => exact iff_of_false (by simp) (not_starts_single_nil c _)
    | cons t text =>
      rw [starts_single_cons, ← ih]
      simp

theorem matchFrom_iff {re text : List UInt8} :
    matchFrom re text = true ↔ ∃ before rest, text = before ++ rest ∧ Starts (items re) rest := by
  induction text with
  | nil =>
    rw [matchFrom, matchhere_iff]
    constructor
    · exact fun starts => ⟨[], [], rfl, starts⟩
    · rintro ⟨before, rest, split, starts⟩
      obtain ⟨-, rfl⟩ := List.nil_eq_append_iff.mp split
      exact starts
  | cons t text ih =>
    rw [matchFrom, Bool.or_eq_true, matchhere_iff, ih]
    constructor
    · rintro (starts | ⟨before, rest, rfl, starts⟩)
      · exact ⟨[], t :: text, rfl, starts⟩
      · exact ⟨t :: before, rest, rfl, starts⟩
    · rintro ⟨before, rest, split, starts⟩
      cases before with
      | nil =>
        obtain rfl := split
        exact .inl starts
      | cons t' before =>
        cases split
        exact .inr ⟨before, rest, rfl, starts⟩

/-- `match` finds a match, and ends in any case, exactly if there is one. -/
theorem isMatch_iff_matches (re text : List UInt8) : isMatch re text = true ↔ Matches re text := by
  have unanchored : (∃ before rest, text = before ++ rest ∧ Starts (items re) rest) ↔
      ∃ before mid after, text = before ++ (mid ++ after) ∧ Denotes (items re) mid after := by
    constructor
    · rintro ⟨before, rest, rfl, mid, after, rfl, denotes⟩
      exact ⟨before, mid, after, rfl, denotes⟩
    · rintro ⟨before, mid, after, rfl, denotes⟩
      exact ⟨before, mid ++ after, rfl, mid, after, rfl, denotes⟩
  unfold isMatch Matches
  cases re with
  | nil =>
    rw [matchFrom_iff, unanchored]
    simp
  | cons c rest =>
    by_cases anchored : c = caret
    · simp only [anchored, if_true, List.head?_cons, List.tail_cons, matchhere_iff]
      constructor
      · rintro ⟨mid, after, rfl, denotes⟩
        exact ⟨[], mid, after, rfl, rfl, denotes⟩
      · rintro ⟨-, mid, after, rfl, rfl, denotes⟩
        exact ⟨mid, after, rfl, denotes⟩
    · simp only [anchored, if_false, List.head?_cons, Option.some.injEq]
      rw [matchFrom_iff, unanchored]

end Xv6.Grep
