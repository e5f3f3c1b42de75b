import Mathlib.Data.List.Nodup
import Mathlib.Logic.Function.Basic
import Mathlib.Tactic.Common

/-!
# Doubly linked lists with a head node

The nodes of a circular list are a head, written `none`, and elements.  Each
node has two links.  `Linked links order` says that the links of the head lead
through the elements in the given order and back, and in the opposite order the
other way; `unlink` and `pushFront` are the usual assignments.
-/

/-- The links of a circular list; `none` is its head. -/
structure Links (α : Type*) where
  next : Option α → Option α
  prev : Option α → Option α

open Function (update update_of_ne update_self)

namespace Links

variable {α : Type*}

/-- From `node`, a link leads through `path` to `last`. -/
def Path (link : Option α → Option α) : (node : Option α) → List α → (last : Option α) → Prop
  | node, [], last => link node = last
  | node, a :: rest, last => link node = some a ∧ Path link (some a) rest last

/-- Following either link from the head visits the elements and returns. -/
structure Linked (links : Links α) (order : List α) : Prop where
  nodup : order.Nodup
  forward : Path links.next none order none
  backward : Path links.prev none order.reverse none

section Assignments

variable [DecidableEq α]

def setNext (links : Links α) (node target : Option α) : Links α :=
  { links with next := update links.next node target }

def setPrev (links : Links α) (node target : Option α) : Links α :=
  { links with prev := update links.prev node target }

/-- `a->next->prev = a->prev; a->prev->next = a->next` -/
def unlink (links : Links α) (a : α) : Links α :=
  let links := links.setPrev (links.next (some a)) (links.prev (some a))
  links.setNext (links.prev (some a)) (links.next (some a))

/-- `a->next = head.next; a->prev = &head; head.next->prev = a; head.next = a` -/
def pushFront (links : Links α) (a : α) : Links α :=
  let links := links.setNext (some a) (links.next none)
  let links := links.setPrev (some a) none
  let links := links.setPrev (links.next none) (some a)
  links.setNext none (some a)

end Assignments

/-! ## Paths -/

section Path

variable {link other : Option α → Option α} {node last : Option α} {a : α} {path rest : List α}

theorem Path.append (first : Path link node path (some a)) (second : Path link (some a) rest last) :
    Path link node (path ++ a :: rest) last := by
  induction path generalizing node with
  | nil => exact ⟨first, second⟩
  | cons b path ih => exact ⟨first.1, ih first.2⟩

theorem Path.split (whole : Path link node (path ++ a :: rest) last) :
    Path link node path (some a) ∧ Path link (some a) rest last := by
  induction path generalizing node with
  | nil => exact whole
  | cons b path ih =>
    obtain ⟨first, second⟩ := ih whole.2
    exact ⟨⟨whole.1, first⟩, second⟩

theorem Path.congr (walk : Path link node path last) (start : other node = link node)
    (same : ∀ b ∈ path, other (some b) = link (some b)) : Path other node path last := by
  induction path generalizing node with
  | nil => exact start.trans walk
  | cons b path ih =>
    rw [List.forall_mem_cons] at same
    exact ⟨start.trans walk.1, ih walk.2 same.1 same.2⟩

theorem Path.first (walk : Path link node path none) : link node = path.head? := by
  cases path with
  | nil => exact walk
  | cons b path => exact walk.1

theorem Path.enter {from' : Option α} (walk : Path link node path none)
    (start : other from' = path.head?) (same : ∀ b ∈ path, other (some b) = link (some b)) :
    Path other from' path none := by
  cases path with
  | nil => exact start
  | cons b path =>
    rw [List.forall_mem_cons] at same
    exact ⟨start, walk.2.congr same.1 same.2⟩

variable [DecidableEq α]

theorem Path.relink (walk : Path link none path last) (nodup : path.Nodup) (target : Option α) :
    Path (update link path.getLast? target) none path target := by
  rcases List.eq_nil_or_concat' path with rfl | ⟨front, a, rfl⟩
  · exact update_self none target link
  · rw [List.nodup_append] at nodup
    have ends : Path (update link (some a) target) (some a) [] target := by
      rw [Path, update_self]
    rw [List.getLast?_concat]
    refine (walk.split.1.congr ?_ ?_).append ends
    · exact update_of_ne (Option.some_ne_none a).symm _ _
    · intro b among
      refine update_of_ne ?_ _ _
      rintro same
      exact nodup.2.2 b among a (List.mem_singleton_self a) (Option.some.inj same)

end Path

/-! ## Removing and inserting -/

section Operations

variable [DecidableEq α] {links : Links α} {a : α} {front back order : List α}

theorem Path.skip {link : Option α → Option α} (walk : Path link none (front ++ a :: back) none)
    (nodup : (front ++ a :: back).Nodup) :
    Path (update link front.getLast? back.head?) none (front ++ back) none := by
  obtain ⟨first, second⟩ := walk.split
  rw [List.nodup_append] at nodup
  obtain ⟨frontNodup, _, apart⟩ := nodup
  have relinked := first.relink frontNodup back.head?
  cases back with
  | nil =>
    rw [List.append_nil]
    exact relinked
  | cons b back =>
    refine relinked.append (second.2.congr ?_ ?_)
    · refine update_of_ne (fun same => ?_) _ _
      exact apart b (List.mem_of_getLast? same.symm) b (by simp) rfl
    · intro c among
      refine update_of_ne (fun same => ?_) _ _
      exact apart c (List.mem_of_getLast? same.symm) c (by simp [among]) rfl

omit [DecidableEq α] in
theorem Linked.next_eq (linked : Linked links (front ++ a :: back)) :
    links.next (some a) = back.head? := linked.forward.split.2.first

omit [DecidableEq α] in
theorem Linked.prev_eq (linked : Linked links (front ++ a :: back)) :
    links.prev (some a) = front.getLast? := by
  have walk := linked.backward
  rw [List.reverse_append, List.reverse_cons, List.append_assoc, List.singleton_append] at walk
  rw [walk.split.2.first, List.head?_reverse]

theorem Linked.unlink (linked : Linked links (front ++ a :: back)) :
    Linked (links.unlink a) (front ++ back) := by
  have nodup := linked.nodup
  have next := linked.next_eq
  have prev := linked.prev_eq
  -- `a->next` is another node, so `a->prev` is still the old one in the second assignment
  have kept : update links.prev back.head? front.getLast? (some a) = front.getLast? := by
    rw [update_of_ne, prev]
    intro same
    rw [List.nodup_append, List.nodup_cons] at nodup
    exact nodup.2.1.1 (List.mem_of_head? same.symm)
  refine ⟨?_, ?_, ?_⟩
  · exact nodup.sublist (List.Sublist.append_left (List.sublist_cons_self a back) front)
  · have walk := linked.forward.skip nodup
    dsimp only [Links.unlink, setNext, setPrev]
    rw [next, prev, kept]
    exact walk
  · have walk := linked.backward
    rw [List.reverse_append, List.reverse_cons, List.append_assoc, List.singleton_append] at walk
    have reversed : (back.reverse ++ a :: front.reverse).Nodup := by
      rw [← List.nodup_reverse]
      simpa using nodup
    have skipped := walk.skip reversed
    rw [List.getLast?_reverse, List.head?_reverse] at skipped
    dsimp only [Links.unlink, setNext, setPrev]
    rw [next, prev, List.reverse_append]
    exact skipped

theorem Linked.pushFront (linked : Linked links order) (new : a ∉ order) :
    Linked (links.pushFront a) (a :: order) := by
  have start := linked.forward.first
  refine ⟨List.nodup_cons.mpr ⟨new, linked.nodup⟩, ?_, ?_⟩
  · dsimp only [Links.pushFront, setNext, setPrev]
    refine ⟨update_self _ _ _, linked.forward.enter ?_ ?_⟩
    · rw [update_of_ne (Option.some_ne_none a), update_self, start]
    · intro b among
      rw [update_of_ne (Option.some_ne_none b), update_of_ne]
      rintro same
      exact new (Option.some.inj same ▸ among)
  · dsimp only [Links.pushFront, setNext, setPrev]
    have moved : Path (update links.prev (some a) none) none order.reverse none := by
      refine linked.backward.congr ?_ ?_
      · exact update_of_ne (Option.some_ne_none a).symm _ _
      · intro b among
        refine update_of_ne ?_ _ _
        rintro same
        exact new (Option.some.inj same ▸ List.mem_reverse.mp among)
    have relinked := moved.relink (List.nodup_reverse.mpr linked.nodup) (some a)
    rw [List.getLast?_reverse] at relinked
    have ends : Path (update (update links.prev (some a) none) order.head? (some a))
        (some a) [] none := by
      rw [Path, update_of_ne, update_self]
      intro same
      exact new (List.mem_of_head? same.symm)
    rw [update_of_ne (Option.some_ne_none a).symm, start, List.reverse_cons]
    exact relinked.append ends

theorem Linked.moveFront (linked : Linked links order) (among : a ∈ order) :
    Linked ((links.unlink a).pushFront a) (a :: order.erase a) := by
  obtain ⟨front, back, rfl⟩ := List.append_of_mem among
  have nodup := linked.nodup
  have apart : a ∉ front := by
    rw [List.nodup_append] at nodup
    intro inside
    exact nodup.2.2 a inside a (by simp) rfl
  have rest : (front ++ a :: back).erase a = front ++ back := by
    rw [List.erase_append_right _ apart, List.erase_cons_head]
  rw [rest]
  refine linked.unlink.pushFront ?_
  rw [← rest]
  exact nodup.not_mem_erase

end Operations

end Links
