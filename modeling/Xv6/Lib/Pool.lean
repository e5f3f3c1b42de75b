import Mathlib.Logic.Basic
import Mathlib.Tactic.Common

/-!
# Pools

Things that are either free or in use for one purpose.  `uses purpose thing` says
what a thing is used for; the lemmas follow a thing that is taken out of the pool
for a new purpose, given back, or passed from one purpose to another.
-/

variable {U T : Type*}

/-- Every thing has at most one use, and free things have none. -/
structure Pool (uses : U → T → Prop) (free : T → Prop) : Prop where
  used : ∀ {use thing}, uses use thing → ¬free thing
  apart : ∀ {use use' thing}, uses use thing → uses use' thing → use = use'

namespace Pool

variable {uses after : U → T → Prop} {free freed : T → Prop} {thing : T}

theorem mono (pool : Pool uses free) (fewer : ∀ use t, after use t → uses use t)
    (same : ∀ t, freed t → free t) : Pool after freed where
  used {use t} inUse isFree := pool.used (fewer use t inUse) (same t isFree)
  apart {use use' t} first second := pool.apart (fewer use t first) (fewer use' t second)

theorem take (pool : Pool uses free) (purpose : U) (isFree : free thing)
    (more : ∀ use t, after use t → uses use t ∨ use = purpose ∧ t = thing)
    (fewer : ∀ t, freed t → free t ∧ t ≠ thing) : Pool after freed where
  used {use t} inUse stillFree := by
    obtain ⟨wasFree, other⟩ := fewer t stillFree
    rcases more use t inUse with before | ⟨-, taken⟩
    · exact pool.used before wasFree
    · exact other taken
  apart {use use' t} first second := by
    rcases more use t first with before | ⟨rfl, rfl⟩
    · rcases more use' t second with before' | ⟨rfl, rfl⟩
      · exact pool.apart before before'
      · exact absurd isFree (pool.used before)
    · rcases more use' t second with before' | ⟨rfl, -⟩
      · exact absurd isFree (pool.used before')
      · rfl

theorem give (pool : Pool uses free) {purpose : U} (owned : uses purpose thing)
    (fewer : ∀ use t, after use t → uses use t) (ended : ¬after purpose thing)
    (more : ∀ t, freed t → free t ∨ t = thing) : Pool after freed where
  used {use t} inUse isFree := by
    rcases more t isFree with wasFree | rfl
    · exact pool.used (fewer use t inUse) wasFree
    · rw [pool.apart (fewer use t inUse) owned] at inUse
      exact ended inUse
  apart {use use' t} first second := pool.apart (fewer use t first) (fewer use' t second)

theorem pass (pool : Pool uses free) (first second : U) :
    Pool (fun use t => uses use t ∧ use ≠ first ∧ use ≠ second ∨ use = second ∧ uses first t)
      free where
  used {use t} inUse := by
    rcases inUse with ⟨before, -⟩ | ⟨-, before⟩ <;> exact pool.used before
  apart {use use' t} one two := by
    rcases one with ⟨before, kept, -⟩ | ⟨rfl, before⟩ <;>
      rcases two with ⟨before', kept', -⟩ | ⟨rfl, before'⟩
    · exact pool.apart before before'
    · exact absurd (pool.apart before before') kept
    · exact absurd (pool.apart before' before) kept'
    · rfl

theorem rename {V : Type*} {renamed : V → T → Prop} (pool : Pool uses free) (name : V → U)
    (injective : Function.Injective name) (fewer : ∀ use t, renamed use t → uses (name use) t) :
    Pool renamed free where
  used {use t} inUse := pool.used (fewer use t inUse)
  apart {use use' t} first second :=
    injective (pool.apart (fewer use t first) (fewer use' t second))

/-- The uses `mine` and the free things are arranged anew, all within a part of the things
that no other use has a share in. -/
theorem replace (pool : Pool uses free) (part : T → Prop) (mine : U → Prop)
    (kept : ∀ use t, ¬mine use → after use t → uses use t)
    (outside : ∀ use t, ¬mine use → uses use t → ¬part t)
    (inside : ∀ use t, mine use → after use t → part t) (within : ∀ t, freed t → part t)
    (arranged : Pool (fun use t => mine use ∧ after use t) freed) : Pool after freed where
  used {use t} inUse isFree := by
    by_cases isMine : mine use
    · exact arranged.used ⟨isMine, inUse⟩ isFree
    · exact outside use t isMine (kept use t isMine inUse) (within t isFree)
  apart {use use' t} first second := by
    by_cases isMine : mine use <;> by_cases isMine' : mine use'
    · exact arranged.apart ⟨isMine, first⟩ ⟨isMine', second⟩
    · exact absurd (inside use t isMine first) (outside use' t isMine' (kept use' t isMine' second))
    · exact absurd (inside use' t isMine' second) (outside use t isMine (kept use t isMine first))
    · exact pool.apart (kept use t isMine first) (kept use' t isMine' second)

end Pool
