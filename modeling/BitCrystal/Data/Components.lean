import Mathlib.Data.Finset.Option
import Mathlib.Data.Finset.Union
import Mathlib.Logic.Relation
import Mathlib.Order.Lattice.Nat
import Mathlib.Tactic.Common

namespace BitCrystal.Data

/-! Merging of overlapping groups, each in a place of its own on a heap.  The
merged groups are the connected components of "in one group". -/

variable {α : Type}

/-- The elements are connected by a chain of groups. -/
def Linked (groups : List (Finset α)) : α → α → Prop :=
  Relation.ReflTransGen fun first second => ∃ group ∈ groups, first ∈ group ∧ second ∈ group

namespace Linked

variable {groups more : List (Finset α)} {first second : α}

theorem of_mem {group : Finset α} (member : group ∈ groups) (left : first ∈ group) (right : second ∈ group) :
    Linked groups first second :=
  .single ⟨group, member, left, right⟩

theorem symm (linked : Linked groups first second) : Linked groups second first := by
  induction linked with
  | refl => exact .refl
  | tail _ step ih =>
      obtain ⟨group, member, left, right⟩ := step
      exact .head ⟨group, member, right, left⟩ ih

theorem mono (inside : groups ⊆ more) (linked : Linked groups first second) : Linked more first second := by
  induction linked with
  | refl => exact .refl
  | tail _ step ih =>
      obtain ⟨group, member, both⟩ := step
      exact .tail ih ⟨group, inside member, both⟩

end Linked

structure Allocator where
  place : Finset Nat → Nat
  fresh : ∀ used, place used ∉ used

/-- The groups in use, with the group that each element is in. -/
structure Groups (α : Type) where
  heap : Nat → Finset α
  used : Finset Nat
  holder : α → Option Nat

namespace Groups

def empty : Groups α := ⟨fun _ => ∅, ∅, fun _ => none⟩

variable [DecidableEq α]

def hits (s : Groups α) (group : Finset α) : Finset Nat := group.biUnion fun element => (s.holder element).toFinset

def merged (s : Groups α) (group : Finset α) : Finset α := group ∪ (s.hits group).biUnion s.heap

def merge (allocator : Allocator) (s : Groups α) (group : Finset α) : Groups α :=
  let place := allocator.place s.used
  let merged := s.merged group
  { heap := Function.update s.heap place merged
    used := insert place (s.used \ s.hits group)
    holder := fun element => if element ∈ merged then some place else s.holder element }

def result (s : Groups α) : Finset (Finset α) := s.used.image s.heap

/-- The groups in use are disjoint, made of linked elements, and contain the groups `seen`. -/
structure Inv (seen : List (Finset α)) (s : Groups α) : Prop where
  holder : ∀ element place, s.holder element = some place ↔ place ∈ s.used ∧ element ∈ s.heap place
  linked : ∀ place ∈ s.used, ∀ first ∈ s.heap place, ∀ second ∈ s.heap place, Linked seen first second
  covered : ∀ place ∈ s.used, ∀ element ∈ s.heap place, ∃ group ∈ seen, element ∈ group
  complete : ∀ group ∈ seen, ∃ place ∈ s.used, group ⊆ s.heap place
  nonempty : ∀ place ∈ s.used, (s.heap place).Nonempty

omit [DecidableEq α] in
theorem Inv.empty : Inv [] (empty : Groups α) := by
  constructor <;> simp [Groups.empty]

variable {allocator : Allocator} {s : Groups α} {seen : List (Finset α)} {group : Finset α} {element : α} {place : Nat}

omit [DecidableEq α] in
theorem mem_hits : place ∈ s.hits group ↔ ∃ element ∈ group, s.holder element = some place := by
  simp [hits]

theorem mem_merged : element ∈ s.merged group ↔ element ∈ group ∨ ∃ place ∈ s.hits group, element ∈ s.heap place := by
  simp [merged]

theorem mem_used_merge : place ∈ (s.merge allocator group).used ↔
    place = allocator.place s.used ∨ place ∈ s.used ∧ place ∉ s.hits group := by
  simp [merge]

theorem heap_merge_new : (s.merge allocator group).heap (allocator.place s.used) = s.merged group :=
  Function.update_self ..

theorem heap_merge_old (known : place ∈ s.used) : (s.merge allocator group).heap place = s.heap place := by
  refine Function.update_of_ne ?_ _ _
  rintro rfl
  exact allocator.fresh s.used known

namespace Inv

omit [DecidableEq α] in
theorem hits_used (inv : Inv seen s) (hit : place ∈ s.hits group) : place ∈ s.used := by
  obtain ⟨element, -, held⟩ := mem_hits.mp hit
  exact ((inv.holder element place).mp held).1

theorem merged_linked (inv : Inv seen s) (member : element ∈ s.merged group) :
    ∃ other ∈ group, Linked (seen ++ [group]) element other := by
  rcases mem_merged.mp member with new | ⟨place, hit, old⟩
  · exact ⟨element, new, .refl⟩
  · obtain ⟨other, inside, held⟩ := mem_hits.mp hit
    obtain ⟨known, holds⟩ := (inv.holder other place).mp held
    exact ⟨other, inside, (inv.linked place known element old other holds).mono (List.subset_append_left seen [group])⟩

theorem merge (allocator : Allocator) (inv : Inv seen s) (some_element : group.Nonempty) :
    Inv (seen ++ [group]) (s.merge allocator group) := by
  have old : seen ⊆ seen ++ [group] := List.subset_append_left seen [group]
  have new : group ∈ seen ++ [group] := List.mem_append_right seen (List.mem_singleton_self group)
  refine ⟨fun element place => ?_, ?_, ?_, ?_, ?_⟩
  · -- a group that is not hit has no element of the merged one
    have apart (known : place ∈ s.used) (missed : place ∉ s.hits group) (holds : element ∈ s.heap place) :
        element ∉ s.merged group := by
      have held := (inv.holder element place).mpr ⟨known, holds⟩
      intro member
      rcases mem_merged.mp member with inside | ⟨other, hit, also⟩
      · exact missed (mem_hits.mpr ⟨element, inside, held⟩)
      · have held' := (inv.holder element other).mpr ⟨inv.hits_used hit, also⟩
        rw [held] at held'
        exact missed (Option.some.inj held' ▸ hit)
    rw [mem_used_merge]
    by_cases member : element ∈ s.merged group
    · rw [show (s.merge allocator group).holder element = some (allocator.place s.used) from if_pos member]
      constructor
      · rintro same
        cases same
        refine ⟨.inl rfl, ?_⟩
        rw [heap_merge_new]
        exact member
      · rintro ⟨rfl | ⟨known, missed⟩, holds⟩
        · rfl
        · rw [heap_merge_old known] at holds
          exact absurd member (apart known missed holds)
    · rw [show (s.merge allocator group).holder element = s.holder element from if_neg member, inv.holder]
      constructor
      · rintro ⟨known, holds⟩
        have missed : place ∉ s.hits group := fun hit => member (mem_merged.mpr (.inr ⟨place, hit, holds⟩))
        refine ⟨.inr ⟨known, missed⟩, ?_⟩
        rw [heap_merge_old known]
        exact holds
      · rintro ⟨rfl | ⟨known, -⟩, holds⟩
        · rw [heap_merge_new] at holds
          exact absurd holds member
        · rw [heap_merge_old known] at holds
          exact ⟨known, holds⟩
  · intro place used first left second right
    rcases mem_used_merge.mp used with rfl | ⟨known, -⟩
    · rw [heap_merge_new] at left right
      obtain ⟨one, inOne, linkOne⟩ := inv.merged_linked left
      obtain ⟨two, inTwo, linkTwo⟩ := inv.merged_linked right
      exact (linkOne.trans (Linked.of_mem new inOne inTwo)).trans linkTwo.symm
    · rw [heap_merge_old known] at left right
      exact (inv.linked place known first left second right).mono old
  · intro place used element holds
    rcases mem_used_merge.mp used with rfl | ⟨known, -⟩
    · rw [heap_merge_new] at holds
      rcases mem_merged.mp holds with inside | ⟨place, hit, also⟩
      · exact ⟨group, new, inside⟩
      · obtain ⟨other, member, inside⟩ := inv.covered place (inv.hits_used hit) element also
        exact ⟨other, old member, inside⟩
    · rw [heap_merge_old known] at holds
      obtain ⟨other, member, inside⟩ := inv.covered place known element holds
      exact ⟨other, old member, inside⟩
  · intro other member
    rcases List.mem_append.mp member with before | last
    · obtain ⟨place, known, inside⟩ := inv.complete other before
      by_cases hit : place ∈ s.hits group
      · refine ⟨_, mem_used_merge.mpr (.inl rfl), fun element holds => ?_⟩
        rw [heap_merge_new]
        exact mem_merged.mpr (.inr ⟨place, hit, inside holds⟩)
      · refine ⟨place, mem_used_merge.mpr (.inr ⟨known, hit⟩), ?_⟩
        rw [heap_merge_old known]
        exact inside
    · rw [List.mem_singleton.mp last]
      refine ⟨_, mem_used_merge.mpr (.inl rfl), fun element holds => ?_⟩
      rw [heap_merge_new]
      exact mem_merged.mpr (.inl holds)
  · intro place used
    rcases mem_used_merge.mp used with rfl | ⟨known, -⟩
    · rw [heap_merge_new]
      exact some_element.mono fun element inside => mem_merged.mpr (.inl inside)
    · rw [heap_merge_old known]
      exact inv.nonempty place known

theorem foldl (allocator : Allocator) {groups : List (Finset α)} (inv : Inv seen s)
    (nonempty : ∀ group ∈ groups, group.Nonempty) :
    Inv (seen ++ groups) (groups.foldl (Groups.merge allocator) s) := by
  induction groups generalizing seen s with
  | nil => rwa [List.append_nil]
  | cons group rest ih =>
      have next := inv.merge allocator (nonempty group List.mem_cons_self)
      have last := ih next fun other member => nonempty other (List.mem_cons_of_mem group member)
      rwa [List.append_assoc, List.singleton_append] at last

end Inv

/-- The groups in use are the connected components. -/
structure Components (groups : List (Finset α)) (components : Finset (Finset α)) : Prop where
  nonempty : ∀ component ∈ components, component.Nonempty
  disjoint : ∀ first ∈ components, ∀ second ∈ components, first ≠ second → Disjoint first second
  union : ∀ element, (∃ component ∈ components, element ∈ component) ↔ ∃ group ∈ groups, element ∈ group
  same : ∀ first second, (∃ component ∈ components, first ∈ component ∧ second ∈ component) ↔
    (∃ group ∈ groups, first ∈ group) ∧ Linked groups first second

theorem mem_result {component : Finset α} : component ∈ s.result ↔ ∃ place ∈ s.used, s.heap place = component := by
  simp [result]

theorem Inv.components (inv : Inv seen s) : Components seen s.result := by
  -- an element is in one group in use only
  have once {first second : Nat} {element : α} (known : first ∈ s.used) (also : second ∈ s.used)
      (left : element ∈ s.heap first) (right : element ∈ s.heap second) : first = second := by
    have held := (inv.holder element first).mpr ⟨known, left⟩
    rw [(inv.holder element second).mpr ⟨also, right⟩] at held
    exact (Option.some.inj held).symm
  constructor
  · intro component member
    obtain ⟨place, known, rfl⟩ := mem_result.mp member
    exact inv.nonempty place known
  · intro first left second right different
    obtain ⟨place, known, rfl⟩ := mem_result.mp left
    obtain ⟨other, also, rfl⟩ := mem_result.mp right
    refine Finset.disjoint_left.mpr fun element inFirst inSecond => different ?_
    rw [once known also inFirst inSecond]
  · intro element
    constructor
    · rintro ⟨component, member, inside⟩
      obtain ⟨place, known, rfl⟩ := mem_result.mp member
      exact inv.covered place known element inside
    · rintro ⟨group, member, inside⟩
      obtain ⟨place, known, contains⟩ := inv.complete group member
      exact ⟨s.heap place, mem_result.mpr ⟨place, known, rfl⟩, contains inside⟩
  · intro first second
    constructor
    · rintro ⟨component, member, left, right⟩
      obtain ⟨place, known, rfl⟩ := mem_result.mp member
      exact ⟨inv.covered place known first left, inv.linked place known first left second right⟩
    · rintro ⟨⟨group, member, inside⟩, linked⟩
      obtain ⟨place, known, contains⟩ := inv.complete group member
      refine ⟨s.heap place, mem_result.mpr ⟨place, known, rfl⟩, contains inside, ?_⟩
      -- along the chain the group in use stays the same
      induction linked with
      | refl => exact contains inside
      | tail _ step ih =>
          obtain ⟨next, stepMember, left, right⟩ := step
          obtain ⟨other, also, whole⟩ := inv.complete next stepMember
          rw [once known also ih (whole left)]
          exact whole right

end Groups

end BitCrystal.Data
