import GoDatabase.Memory.Reads
import GoDatabase.Structures.Basic

/-!
# The three in-memory structures are one

The hash map, the sorted slice and the in-memory tree return the same results on every
sequence of calls.
-/

namespace GoDatabase.Structures

open Library

/-- `NewMap` -/
def NewMap : Map := ⟨[], 0⟩

/-- `NewSortedSlice` -/
def NewSortedSlice : SortedSlice := ⟨[]⟩

/-- `NewMemory`: the zero value. -/
def NewMemory : Memory.Tree := ⟨none, 0, 0⟩

/-- Every sequence of calls has one sequence of outcomes, without an error, which each structure
returns from its empty state, in whatever order the map is iterated and whatever
sinks are attached on the way. -/
theorem structures_agree {τ : Type} [Sink τ] (calls : List Call) :
    ∃ outcomes : List Outcome, (∀ outcome ∈ outcomes, outcome.err = none) ∧
      ∀ steps : List (Step τ), Step.calls steps = calls → ∀ sink : Option τ,
        (∀ orders, ∃ final, runSteps (Map.methods orders).kv steps ⟨NewMap, sink⟩ =
          some (outcomes, final)) ∧
        (∃ final, runSteps SortedSlice.methods.kv steps ⟨NewSortedSlice, sink⟩ =
          some (outcomes, final)) ∧
        ∃ final, runSteps Memory.methods.kv steps ⟨NewMemory, sink⟩ = some (outcomes, final) := by
  refine ⟨answers [] calls, err_answers, ?_⟩
  rintro steps rfl sink
  refine ⟨fun orders => ?_, ?_, ?_⟩
  · exact (Map.implements orders).runSteps_eq ⟨rfl, List.Pairwise.nil⟩
  · exact SortedSlice.implements.runSteps_eq ⟨rfl, List.Pairwise.nil⟩
  · exact Memory.implements.runSteps_eq ⟨⟨rfl, nofun⟩, rfl⟩

end GoDatabase.Structures
