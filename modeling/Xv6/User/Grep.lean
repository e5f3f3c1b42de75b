import Xv6.Param

/-!
# Lines of text

`grep.c` reads its input a piece at a time, writes the lines that match and keeps what
comes after the last newline for the next round.  When a round brings no newline at all it
forgets everything it has kept.
-/

namespace Xv6.Grep

abbrev newline : UInt8 := 10
abbrev star : UInt8 := 42
abbrev dollar : UInt8 := 36
abbrev dot : UInt8 := 46
abbrev caret : UInt8 := 94

/-! ## The matcher -/

/-- `matchstar`, which calls `matchhere` for the rest of the pattern. -/
def matchstar (c : UInt8) (here : List UInt8 → Bool) : (text : List UInt8) → Bool
  | [] => here []
  | t :: text => here (t :: text) || ((t == c || c == dot) && matchstar c here text)

def matchhere : (re text : List UInt8) → Bool
  | [], _ => true
  | [c], text =>
    if c = dollar then text.isEmpty
    else match text with
      | [] => false
      | t :: text => (c == dot || c == t) && matchhere [] text
  | c :: c' :: re, text =>
    if c' = star then matchstar c (matchhere re) text
    else match text with
      | [] => false
      | t :: text => (c == dot || c == t) && matchhere (c' :: re) text

def matchFrom (re : List UInt8) : (text : List UInt8) → Bool
  | [] => matchhere re []
  | t :: text => matchhere re (t :: text) || matchFrom re text

def isMatch (re text : List UInt8) : Bool :=
  match re with
  | c :: rest => if c = caret then matchhere rest text else matchFrom re text
  | [] => matchFrom [] text

/-! ## The loop over the input -/

/-- `strchr(p, '\n')`: what stands before the newline and after it. -/
def strchr : (p : List UInt8) → Option (List UInt8 × List UInt8)
  | [] => none
  | c :: p =>
    if c = 0 then none
    else if c = newline then some ([], p)
    else (strchr p).map fun (before, after) => (c :: before, after)

theorem length_strchr {p before after : List UInt8} (found : strchr p = some (before, after)) :
    after.length < p.length := by
  induction p generalizing before with
  | nil => cases found
  | cons c p ih =>
    unfold strchr at found
    split at found
    · cases found
    · split at found
      · cases found
        simp
      · obtain ⟨⟨before', after'⟩, found', same⟩ := Option.map_eq_some_iff.mp found
        cases same
        have := ih found'
        simp only [List.length_cons]
        omega

/-- The loop over the lines in the buffer: what is written, and the text from `p` on. -/
def grepLines (pattern p : List UInt8) : List UInt8 × List UInt8 :=
  match found : strchr p with
  | none => ([], p)
  | some (before, after) =>
    have := length_strchr found
    let (output, rest) := grepLines pattern after
    ((if isMatch pattern before then before ++ [newline] else []) ++ output, rest)
termination_by p.length

abbrev BUFSIZE : Nat := 1024

/-- What is left in the buffer after a round has come to `p` in `text`. -/
def keep (text p : List UInt8) : List UInt8 := if p.length = text.length then [] else p

/-- The rounds of `grep` on the results of `read`; `buf` is what has been kept. -/
def grepFrom (pattern : List UInt8) : (buf : List UInt8) → (chunks : List (List UInt8)) → List UInt8
  | _, [] => []
  | buf, chunk :: chunks =>
    let (output, p) := grepLines pattern (buf ++ chunk)
    output ++ grepFrom pattern (keep (buf ++ chunk) p) chunks

def grep (pattern : List UInt8) (chunks : List (List UInt8)) : List UInt8 :=
  grepFrom pattern [] chunks

/-! ## What grep is for -/

def lines : List UInt8 → List (List UInt8)
  | [] => []
  | c :: text =>
    if c = newline then [] :: lines text
    else match lines text with
      | [] => []
      | line :: rest => (c :: line) :: rest

def matching (pattern text : List UInt8) : List UInt8 :=
  ((lines text).filter (isMatch pattern)).flatMap (· ++ [newline])

/-- Each result of `read` brings something, and no more than was asked for. -/
def Reads : (buf : List UInt8) → (chunks : List (List UInt8)) → Prop
  | _, [] => True
  | buf, chunk :: chunks => 0 < chunk.length ∧ chunk.length ≤ BUFSIZE - buf.length - 1 ∧
      ∀ pattern, Reads (keep (buf ++ chunk) (grepLines pattern (buf ++ chunk)).2) chunks

/-- A text without zero bytes and with short lines, in the pieces that `read` returns. -/
structure Input where
  chunks : List (List UInt8)
  clean : ∀ chunk ∈ chunks, 0 ∉ chunk
  short : ∀ line ∈ lines chunks.flatten, line.length + 1 ≤ BUFSIZE - 1
  reads : Reads [] chunks

section Lines

variable {before after text x : List UInt8}

theorem lines_eq_nil (fresh : newline ∉ text) : lines text = [] := by
  induction text with
  | nil => rfl
  | cons c text ih =>
    rw [List.mem_cons, not_or] at fresh
    rw [lines, if_neg (Ne.symm fresh.1), ih fresh.2]

theorem lines_line (fresh : newline ∉ before) :
    lines (before ++ newline :: after) = before :: lines after := by
  induction before with
  | nil => rfl
  | cons c before ih =>
    rw [List.mem_cons, not_or] at fresh
    rw [List.cons_append, lines, if_neg (Ne.symm fresh.1), ih fresh.2]

theorem lines_append (fresh : newline ∉ x) (ends : newline ∈ text) :
    ∃ line rest, lines text = line :: rest ∧ lines (x ++ text) = (x ++ line) :: rest := by
  obtain ⟨before, after, rfl, fresh'⟩ := List.eq_append_cons_of_mem ends
  refine ⟨before, lines after, lines_line fresh', ?_⟩
  rw [← List.append_assoc]
  exact lines_line fun member => (List.mem_append.mp member).elim fresh fresh'

theorem strchr_eq_none (fresh : newline ∉ text) : strchr text = none := by
  induction text with
  | nil => rfl
  | cons c text ih =>
    rw [List.mem_cons, not_or] at fresh
    rw [strchr, if_neg (Ne.symm fresh.1), ih fresh.2]
    exact ite_self _

theorem strchr_line (clean : 0 ∉ before) (fresh : newline ∉ before) :
    strchr (before ++ newline :: after) = some (before, after) := by
  induction before with
  | nil => rfl
  | cons c before ih =>
    rw [List.mem_cons, not_or] at clean fresh
    rw [List.cons_append, strchr, if_neg (Ne.symm clean.1), if_neg (Ne.symm fresh.1),
      ih clean.2 fresh.2]
    rfl

theorem grepLines_fresh (pattern : List UInt8) (fresh : newline ∉ text) :
    grepLines pattern text = ([], text) := by
  rw [grepLines]
  split
  · rfl
  next found =>
    rw [strchr_eq_none fresh] at found
    cases found

theorem grepLines_line (pattern : List UInt8) (clean : 0 ∉ before) (fresh : newline ∉ before) :
    grepLines pattern (before ++ newline :: after) =
      ((if isMatch pattern before then before ++ [newline] else []) ++ (grepLines pattern after).1,
        (grepLines pattern after).2) := by
  rw [grepLines]
  split
  next found =>
    rw [strchr_line clean fresh] at found
    cases found
  next found =>
    rw [strchr_line clean fresh] at found
    cases found
    rfl

end Lines

/-! ## Rounds -/

/-- A round takes the complete lines, `done`, from the text and leaves `rest`. -/
structure Cut (text done rest : List UInt8) : Prop where
  all : done ++ rest = text
  fresh : newline ∉ rest
  lines_append : ∀ more, lines (done ++ more) = lines done ++ lines more
  output : ∀ pattern, grepLines pattern text = (matching pattern done, rest)

section Cut

variable {pattern text done rest more before after : List UInt8}

theorem Cut.matching_append (cut : Cut text done rest) :
    matching pattern (done ++ more) = matching pattern done ++ matching pattern more := by
  rw [matching, cut.lines_append, List.filter_append, List.flatMap_append]
  rfl

theorem Cut.line (cut : Cut after done rest) (clean : 0 ∉ before) (fresh : newline ∉ before) :
    Cut (before ++ newline :: after) (before ++ newline :: done) rest where
  all := by rw [List.append_assoc, List.cons_append, cut.all]
  fresh := cut.fresh
  lines_append more := by
    rw [List.append_assoc, List.cons_append, lines_line fresh, lines_line fresh, cut.lines_append]
    rfl
  output pattern := by
    rw [grepLines_line pattern clean fresh, cut.output, matching, matching, lines_line fresh,
      List.filter_cons]
    split <;> rfl

theorem exists_cut (text : List UInt8) (clean : 0 ∉ text) : ∃ done rest, Cut text done rest := by
  by_cases ends : newline ∈ text
  · obtain ⟨before, after, same, fresh⟩ := List.eq_append_cons_of_mem ends
    have shorter : after.length < text.length := by
      rw [same, List.length_append, List.length_cons]
      omega
    obtain ⟨done, rest, cut⟩ := exists_cut after fun zero => clean (by simp [same, zero])
    rw [same]
    exact ⟨_, _, cut.line (fun zero => clean (by simp [same, zero])) fresh⟩
  · exact ⟨[], text, rfl, ends, fun _ => rfl, fun pattern => grepLines_fresh pattern ends⟩
termination_by text.length

theorem Cut.keep_eq (cut : Cut text done rest) (ends : newline ∈ text) : keep text rest = rest := by
  have positive : done ≠ [] := by
    rintro rfl
    exact cut.fresh (by rwa [← List.nil_append rest, cut.all])
  have := List.length_pos_iff.mpr positive
  exact if_neg (by rw [← cut.all, List.length_append]; omega)

end Cut

/-! ## Nothing is lost exactly if every piece but the last ones has a newline -/

/-- A piece without a newline is followed by no newline. -/
def Kept (chunks : List (List UInt8)) : Prop :=
  chunks.Pairwise fun earlier later => newline ∈ later → newline ∈ earlier

section Rounds

variable {pattern buf chunk : List UInt8} {chunks : List (List UInt8)}

theorem grepFrom_line (ends : newline ∈ chunk) (clean : 0 ∉ buf ++ chunk) :
    ∃ done rest, done ++ rest = buf ++ chunk ∧ newline ∉ rest ∧ ∀ pattern,
      grepFrom pattern buf (chunk :: chunks) =
          matching pattern done ++ grepFrom pattern rest chunks ∧
        ∀ more, matching pattern (done ++ more) =
          matching pattern done ++ matching pattern more := by
  obtain ⟨done, rest, cut⟩ := exists_cut (buf ++ chunk) clean
  refine ⟨done, rest, cut.all, cut.fresh, fun pattern => ⟨?_, fun more => cut.matching_append⟩⟩
  rw [grepFrom, cut.output]
  simp only [cut.keep_eq (List.mem_append_right buf ends)]

theorem grepFrom_fresh (fresh : newline ∉ buf ++ chunk) :
    grepFrom pattern buf (chunk :: chunks) = grepFrom pattern [] chunks := by
  rw [grepFrom, grepLines_fresh pattern fresh]
  simp [keep]

theorem matching_eq_nil (fresh : newline ∉ buf) : matching pattern buf = [] := by
  rw [matching, lines_eq_nil fresh]
  rfl

theorem grepFrom_eq (clean : 0 ∉ buf ++ chunks.flatten) (fresh : newline ∉ buf)
    (kept : Kept chunks) :
    grepFrom pattern buf chunks = matching pattern (buf ++ chunks.flatten) := by
  induction chunks generalizing buf with
  | nil => rw [List.flatten_nil, List.append_nil, matching_eq_nil fresh, grepFrom]
  | cons chunk chunks ih =>
    obtain ⟨later, kept'⟩ := List.pairwise_cons.mp kept
    rw [List.flatten_cons, ← List.append_assoc] at clean ⊢
    rw [List.mem_append, not_or] at clean
    by_cases ends : newline ∈ chunk
    · obtain ⟨done, rest, all, fresh', step⟩ := grepFrom_line ends clean.1
      rw [(step pattern).1, ← all, List.append_assoc, (step pattern).2]
      rw [← all, List.mem_append, not_or] at clean
      rw [ih (List.not_mem_append clean.1.2 clean.2) fresh' kept']
    · have none : newline ∉ buf ++ chunk := List.not_mem_append fresh ends
      have after : newline ∉ chunks.flatten := by
        intro member
        obtain ⟨piece, isPiece, member⟩ := List.mem_flatten.mp member
        exact ends (later piece isPiece member)
      rw [grepFrom_fresh none, ih (List.not_mem_append List.not_mem_nil clean.2)
        List.not_mem_nil kept', List.nil_append, matching_eq_nil after,
        matching_eq_nil (List.not_mem_append none after)]

theorem isMatch_nil (text : List UInt8) : isMatch [] text = true := by
  cases text <;> rfl

theorem length_matching_append (fresh : newline ∉ buf) {text : List UInt8} (ends : newline ∈ text) :
    (matching [] (buf ++ text)).length = buf.length + (matching [] text).length := by
  obtain ⟨line, rest, here, there⟩ := lines_append fresh ends
  simp only [matching, here, there, List.filter_cons, isMatch_nil, if_true, List.flatMap_cons,
    List.length_append]
  omega

/-- With the empty pattern grep writes no more than the text, and less if something is lost. -/
theorem length_grepFrom (clean : 0 ∉ buf ++ chunks.flatten) (fresh : newline ∉ buf)
    (some : ∀ chunk ∈ chunks, 0 < chunk.length) :
    (grepFrom [] buf chunks).length ≤ (matching [] (buf ++ chunks.flatten)).length ∧
      ((grepFrom [] buf chunks).length = (matching [] (buf ++ chunks.flatten)).length →
        Kept chunks) := by
  induction chunks generalizing buf with
  | nil => exact ⟨by simp [grepFrom], fun _ => List.Pairwise.nil⟩
  | cons chunk chunks ih =>
    have some' : ∀ chunk ∈ chunks, 0 < chunk.length :=
      fun chunk member => some chunk (by simp [member])
    rw [List.flatten_cons, ← List.append_assoc] at clean ⊢
    rw [List.mem_append, not_or] at clean
    by_cases ends : newline ∈ chunk
    · obtain ⟨done, rest, all, fresh', step⟩ := grepFrom_line ends clean.1
      rw [(step []).1, ← all, List.append_assoc, (step []).2, List.length_append,
        List.length_append]
      rw [← all, List.mem_append, not_or] at clean
      obtain ⟨atMost, exactly⟩ :=
        ih (List.not_mem_append clean.1.2 clean.2) fresh' some'
      exact ⟨by omega, fun same => List.pairwise_cons.mpr ⟨fun _ _ _ => ends, exactly (by omega)⟩⟩
    · have none : newline ∉ buf ++ chunk := List.not_mem_append fresh ends
      obtain ⟨atMost, exactly⟩ := ih (List.not_mem_append List.not_mem_nil clean.2)
        List.not_mem_nil some'
      rw [grepFrom_fresh none]
      rw [List.nil_append] at atMost exactly
      by_cases after : newline ∈ chunks.flatten
      · have positive := some chunk (by simp)
        rw [length_matching_append none after, List.length_append]
        exact ⟨by omega, fun same => by omega⟩
      · rw [matching_eq_nil after] at atMost exactly
        rw [matching_eq_nil (List.not_mem_append none after)]
        refine ⟨atMost, fun same =>
          List.pairwise_cons.mpr ⟨fun piece isPiece member => ?_, exactly same⟩⟩
        exact absurd (List.mem_flatten.mpr ⟨piece, isPiece, member⟩) after

end Rounds

theorem Reads.pos {buf : List UInt8} {chunks : List (List UInt8)} (reads : Reads buf chunks) :
    ∀ chunk ∈ chunks, 0 < chunk.length := by
  induction chunks generalizing buf with
  | nil => simp
  | cons chunk chunks ih =>
    obtain ⟨positive, -, rest⟩ := reads
    exact List.forall_mem_cons.mpr ⟨positive, ih (rest [])⟩

/-- `grep` writes the lines that match, for every pattern, exactly if each piece that `read`
returns before the last newline has a newline in it. -/
theorem grep_matching_iff (input : Input) :
    (∀ pattern, 0 ∉ pattern → grep pattern input.chunks = matching pattern input.chunks.flatten) ↔
      Kept input.chunks := by
  have clean : 0 ∉ [] ++ input.chunks.flatten := by
    intro zero
    obtain ⟨chunk, isChunk, zero⟩ := List.mem_flatten.mp zero
    exact input.clean chunk isChunk zero
  constructor
  · intro right
    refine (length_grepFrom clean (by simp) input.reads.pos).2 ?_
    rw [List.nil_append, ← right [] (by simp)]
    rfl
  · intro kept pattern _
    exact grepFrom_eq clean (by simp) kept

/-- Two pieces, each of which ends a line. -/
def wholeLines : Input where
  chunks := [[97, newline, 98], [99, newline]]
  clean := by decide
  short := by decide
  reads := ⟨by decide, by decide, fun pattern => by
    have whole : ([] ++ [97, newline, 98] : List UInt8) = [97] ++ newline :: [98] := rfl
    rw [whole, grepLines_line pattern (by decide) (by decide), grepLines_fresh pattern (by decide)]
    dsimp only
    exact ⟨by decide, by decide, fun _ => trivial⟩⟩

theorem grep_matching_whole : ∀ pattern, 0 ∉ pattern →
    grep pattern wholeLines.chunks = matching pattern wholeLines.chunks.flatten :=
  (grep_matching_iff wholeLines).mpr (by unfold Kept; decide)

/-- The line "ab" comes in two pieces. -/
def splitLine : Input where
  chunks := [[97], [98, newline]]
  clean := by decide
  short := by decide
  reads := ⟨by decide, by decide, fun pattern => by
    rw [List.nil_append, grepLines_fresh pattern (by decide)]
    exact ⟨by decide, by decide, fun _ => trivial⟩⟩

/-- It matches the pattern "a", but the piece with the "a" is forgotten. -/
theorem grep_loses_line : grep [97] splitLine.chunks = [] ∧
    matching [97] splitLine.chunks.flatten = [97, 98, newline] := by
  refine ⟨?_, by decide⟩
  have line : grepLines [97] ([] ++ [98, newline]) = ([], []) := by
    have whole : ([] ++ [98, newline] : List UInt8) = [98] ++ newline :: [] := rfl
    rw [whole, grepLines_line [97] (by decide) (by decide), grepLines_fresh [97] (by decide)]
    rfl
  change grepFrom [97] [] [[97], [98, newline]] = []
  rw [grepFrom_fresh (by decide), grepFrom, line]
  rfl

end Xv6.Grep
