import Mathlib.Data.List.Basic
import Mathlib.Logic.Function.Basic
import Mathlib.Tactic.Common

/-!
# Linked lists in memory

A list whose nodes hold the links: `next node` is what a node stores, `link node`
is the pointer to a node, and `stop` is the pointer that ends the list.
-/

variable {Node Ptr : Type*}

/-- The nodes met from the pointer `head` on. -/
def Chain (link next : Node → Ptr) (stop : Ptr) : Ptr → List Node → Prop
  | head, [] => head = stop
  | head, node :: rest => head = link node ∧ Chain link next stop (next node) rest

namespace Chain

variable {link next after : Node → Ptr} {stop head : Ptr} {node : Node} {nodes rest : List Node}

theorem frame (chain : Chain link next stop head nodes)
    (same : ∀ n ∈ nodes, after n = next n) : Chain link after stop head nodes := by
  induction nodes generalizing head with
  | nil => exact chain
  | cons node rest ih =>
    obtain ⟨atHead, follows⟩ := chain
    refine ⟨atHead, ?_⟩
    rw [same node (by simp)]
    exact ih follows fun n member => same n (by simp [member])

theorem unique {nodes' : List Node} (first : Chain link next stop head nodes)
    (second : Chain link next stop head nodes')
    (injective : ∀ n ∈ nodes, ∀ n' ∈ nodes', link n = link n' → n = n')
    (proper : ∀ n ∈ nodes, link n ≠ stop) (proper' : ∀ n ∈ nodes', link n ≠ stop) :
    nodes = nodes' := by
  induction nodes generalizing head nodes' with
  | nil =>
    cases nodes' with
    | nil => rfl
    | cons node rest => exact absurd (second.1.symm.trans first) (proper' node (by simp))
  | cons node rest ih =>
    cases nodes' with
    | nil => exact absurd (first.1.symm.trans second) (proper node (by simp))
    | cons node' rest' =>
      obtain rfl := injective node (by simp) node' (by simp) (first.1.symm.trans second.1)
      congr 1
      exact ih first.2 second.2
        (fun n member n' member' => injective n (by simp [member]) n' (by simp [member']))
        (fun n member => proper n (by simp [member]))
        fun n member => proper' n (by simp [member])

theorem snoc [DecidableEq Node] {last : Node} (chain : Chain link next stop head (nodes ++ [last]))
    (nodup : (nodes ++ [last]).Nodup) (new : node ∉ nodes ++ [last]) (ends : next node = stop) :
    Chain link (Function.update next last (link node)) stop head (nodes ++ [last, node]) := by
  induction nodes generalizing head with
  | nil =>
    have other : node ≠ last := by simpa using new
    refine ⟨chain.1, ?_, ?_⟩
    · exact Function.update_self last _ next
    · exact (Function.update_of_ne other _ _).trans ends
  | cons first rest ih =>
    rw [List.cons_append, List.nodup_cons] at nodup
    have apart : first ≠ last := by
      rintro rfl
      exact nodup.1 (by simp)
    refine ⟨chain.1, ?_⟩
    rw [Function.update_of_ne apart]
    exact ih chain.2 nodup.2 fun among => new (List.mem_cons_of_mem _ among)

end Chain
