import Mathlib.Data.Set.Card
import Mathlib.Logic.Relation

namespace BitCrystal.Data

open Relation

/-! Everything that can be reached along a relation, and the measure by which a
search along an acyclic relation on a finite type ends. -/

variable {α : Type} {relation smaller : α → α → Prop} {start next : α}

def descendants (relation : α → α → Prop) (start : α) : Set α :=
  {reached | ReflTransGen relation start reached}

/-- Following a step never leaves the set. -/
def Closed (relation : α → α → Prop) (set : Set α) : Prop :=
  ∀ element ∈ set, ∀ next, relation element next → next ∈ set

def Acyclic (relation : α → α → Prop) : Prop :=
  ∀ element, ¬ TransGen relation element element

theorem start_mem_descendants : start ∈ descendants relation start :=
  ReflTransGen.refl

theorem descendants_closed : Closed relation (descendants relation start) :=
  fun _ reached _ step => ReflTransGen.tail reached step

theorem descendants_subset_of_closed {set : Set α} (member : start ∈ set)
    (closed : Closed relation set) : descendants relation start ⊆ set := by
  intro reached path
  induction path with
  | refl => exact member
  | tail _ step ih => exact closed _ ih _ step

theorem descendants_mono (sub : ∀ element next, smaller element next → relation element next) :
    descendants smaller start ⊆ descendants relation start :=
  fun _ path => ReflTransGen.mono sub _ _ path

theorem descendants_subset (step : relation start next) :
    descendants relation next ⊆ descendants relation start :=
  fun _ path => ReflTransGen.head step path

theorem descendants_of_no_step (stuck : ∀ next, ¬ relation start next) :
    descendants relation start = {start} := by
  apply Set.eq_of_subset_of_subset
  · apply descendants_subset_of_closed (Set.mem_singleton start)
    intro element same next step
    rw [Set.mem_singleton_iff.mp same] at step
    exact absurd step (stuck next)
  · intro element same
    rw [Set.mem_singleton_iff.mp same]
    exact start_mem_descendants

theorem Acyclic.mono (acyclic : Acyclic relation)
    (sub : ∀ element next, smaller element next → relation element next) : Acyclic smaller :=
  fun element cycle => acyclic element (TransGen.mono sub _ _ cycle)

theorem Acyclic.ncard_lt [Finite α] (acyclic : Acyclic relation) (step : relation start next) :
    (descendants relation next).ncard < (descendants relation start).ncard := by
  apply Set.ncard_lt_ncard _ (Set.toFinite _)
  refine ⟨descendants_subset step, fun back => ?_⟩
  have around : ReflTransGen relation next start := back start_mem_descendants
  exact acyclic start (TransGen.head' step around)

end BitCrystal.Data
