import Mathlib.Algebra.BigOperators.Fin
import Mathlib.Algebra.BigOperators.Group.Finset.Basic
import Mathlib.Algebra.Order.BigOperators.Group.Finset
import Mathlib.Data.List.Basic
import Mathlib.Data.Multiset.AddSub
import Std.Data.ExtTreeMap

namespace BitCrystal.Data

/-! # Tables with an index

A list whose elements know their positions, and sums over a family of buckets of
which one changes at a time. -/

theorem sum_update {ι P : Type} [Fintype ι] [DecidableEq ι] (position : ι → P) (weight : P → Nat)
    (place : ι) (next : P) :
    ∑ i, weight (Function.update position place next i) + weight (position place) =
      ∑ i, weight (position i) + weight next := by
  have others : ∑ i ∈ Finset.univ.erase place, weight (Function.update position place next i) =
      ∑ i ∈ Finset.univ.erase place, weight (position i) :=
    Finset.sum_congr rfl fun i member => by
      rw [Function.update_of_ne (Finset.ne_of_mem_erase member)]
  have after := Finset.add_sum_erase Finset.univ
    (fun i => weight (Function.update position place next i)) (Finset.mem_univ place)
  have before := Finset.add_sum_erase Finset.univ (fun i => weight (position i)) (Finset.mem_univ place)
  simp only [Function.update_self] at after
  omega

section

variable {α β : Type} [Ord α] [Std.TransOrd α] [Std.LawfulEqOrd α] [DecidableEq α]

theorem lookup_insert (map : Std.ExtTreeMap α β) (key other : α) (value : β) :
    (map.insert key value)[other]? = if other = key then some value else map[other]? := by
  simp only [Std.ExtTreeMap.getElem?_insert, Std.compare_eq_iff_eq, @eq_comm α key]

theorem lookup_erase (map : Std.ExtTreeMap α β) (key other : α) :
    (map.erase key)[other]? = if other = key then none else map[other]? := by
  simp only [Std.ExtTreeMap.getElem?_erase, Std.compare_eq_iff_eq, @eq_comm α key]

omit [DecidableEq α] [Std.LawfulEqOrd α] in
theorem lookup_eq_none_iff {map : Std.ExtTreeMap α β} {key : α} : map[key]? = none ↔ key ∉ map := by
  rw [Std.ExtTreeMap.mem_iff_isSome_getElem?, Bool.not_eq_true, Option.isSome_eq_false_iff, Option.isNone_iff_eq_none]

omit [DecidableEq α] in
theorem toList_keys_nodup (map : Std.ExtTreeMap α β) : (map.toList.map Prod.fst).Nodup := by
  have distinct := Std.ExtTreeMap.distinct_keys_toList (t := map)
  rw [List.Nodup, List.pairwise_map]
  refine distinct.imp fun different same => ?_
  exact different (Std.compare_eq_iff_eq.mpr same)

theorem lookup_insertIfNew (map : Std.ExtTreeMap α β) (key other : α) (value : β) :
    (map.insertIfNew key value)[other]? =
      if other = key ∧ map[key]? = none then some value else map[other]? := by
  simp only [Std.ExtTreeMap.getElem?_insertIfNew, Std.compare_eq_iff_eq, @eq_comm α key, lookup_eq_none_iff]

end

/-! ## Writing entries one after the other -/

section

variable {α β : Type} [DecidableEq α] {entries : List (α × β)} {key : α} {value : β}

def writeAll (table : α → Option β) (entries : List (α × β)) : α → Option β :=
  entries.foldl (fun table entry => Function.update table entry.1 (some entry.2)) table

theorem writeAll_cons (table : α → Option β) (first : α × β) (rest : List (α × β)) :
    writeAll table (first :: rest) = writeAll (Function.update table first.1 (some first.2)) rest :=
  rfl

theorem writeAll_of_some {table : α → Option β} (found : writeAll table entries key = some value) :
    (key, value) ∈ entries ∨ table key = some value := by
  induction entries generalizing table with
  | nil => exact Or.inr found
  | cons first rest ih =>
      rw [writeAll_cons] at found
      rcases ih found with later | updated
      · exact Or.inl (List.mem_cons_of_mem first later)
      · by_cases same : key = first.1
        · subst same
          rw [Function.update_self, Option.some.injEq] at updated
          subst updated
          exact Or.inl List.mem_cons_self
        · rw [Function.update_of_ne same] at updated
          exact Or.inr updated

theorem writeAll_ne_none {table : α → Option β} (present : table key ≠ none ∨ key ∈ entries.map Prod.fst) :
    writeAll table entries key ≠ none := by
  induction entries generalizing table with
  | nil => exact present.resolve_right List.not_mem_nil
  | cons first rest ih =>
      rw [writeAll_cons]
      apply ih
      by_cases same : key = first.1
      · subst same
        rw [Function.update_self]
        exact Or.inl (Option.some_ne_none _)
      · rw [Function.update_of_ne same]
        rcases present with before | member
        · exact Or.inl before
        · exact Or.inr ((List.mem_cons.mp member).resolve_left same)

end

theorem getElem?_concat_eq_some {α : Type} {xs : List α} {a b : α} {k : Nat} :
    (xs ++ [a])[k]? = some b ↔ xs[k]? = some b ∨ k = xs.length ∧ b = a := by
  rcases lt_trichotomy k xs.length with less | rfl | more
  · rw [List.getElem?_append_left less]
    simp [Nat.ne_of_lt less]
  · simp [eq_comm]
  · rw [List.getElem?_eq_none (by simp; omega), List.getElem?_eq_none (by omega)]
    simp [Nat.ne_of_gt more]

/-- The position of every element of the list, and of nothing else. -/
def Indexes {α : Type} (xs : List α) (position : α → Option Nat) : Prop :=
  ∀ a i, position a = some i ↔ xs[i]? = some a

namespace Indexes

variable {α : Type} [DecidableEq α] {xs : List α} {position : α → Option Nat} {a b : α} {i j : Nat}

omit [DecidableEq α] in
theorem at_some (indexes : Indexes xs position) (found : position a = some i) : xs[i]? = some a :=
  (indexes a i).mp found

omit [DecidableEq α] in
theorem mem_iff (indexes : Indexes xs position) : a ∈ xs ↔ (position a).isSome := by
  rw [List.mem_iff_getElem?, Option.isSome_iff_exists]
  exact exists_congr fun i => (indexes a i).symm

omit [DecidableEq α] in
theorem nodup (indexes : Indexes xs position) : xs.Nodup := by
  rw [List.nodup_iff_getElem?_ne_getElem?]
  intro i j before within same
  have found : xs[j]? = some xs[j] := List.getElem?_eq_getElem within
  have first := (indexes _ _).mpr (same.trans found)
  have second := (indexes _ _).mpr found
  have := Option.some.inj (first.symm.trans second)
  omega

theorem push (indexes : Indexes xs position) (fresh : position a = none) :
    Indexes (xs ++ [a]) (Function.update position a (some xs.length)) := by
  intro b i
  have absent : a ∉ xs := by simp [indexes.mem_iff, fresh]
  by_cases same : b = a
  · subst same
    rw [Function.update_self]
    rcases lt_trichotomy i xs.length with less | rfl | more
    · rw [List.getElem?_append_left less]
      constructor
      · intro at_end
        exact absurd (Option.some.inj at_end) (by omega)
      · exact fun found => absurd (List.mem_of_getElem? found) absent
    · simp
    · rw [List.getElem?_eq_none (by simp; omega)]
      simp only [Option.some.injEq, reduceCtorEq, iff_false]
      omega
  · rw [Function.update_of_ne same, indexes b i]
    by_cases less : i < xs.length
    · rw [List.getElem?_append_left less]
    · rw [List.getElem?_eq_none (by omega)]
      constructor
      · intro none
        cases none
      · intro found
        have member := List.mem_of_getElem? found
        rcases List.mem_append.mp member with inside | last
        · rw [List.getElem?_append_right (by omega)] at found
          exact absurd (List.mem_singleton.mp (List.mem_of_getElem? found)) same
        · exact absurd (List.mem_singleton.mp last) same

theorem swap (indexes : Indexes xs position) (different : i ≠ j) (first : xs[i]? = some a)
    (second : xs[j]? = some b) :
    Indexes ((xs.set i b).set j a) (Function.update (Function.update position a (some j)) b (some i)) := by
  have ab : a ≠ b := by
    rintro rfl
    have := Option.some.inj (((indexes a i).mpr first).symm.trans ((indexes a j).mpr second))
    exact different this
  obtain ⟨within_i, -⟩ := List.getElem?_eq_some_iff.mp first
  obtain ⟨within_j, -⟩ := List.getElem?_eq_some_iff.mp second
  intro c k
  have before := indexes c k
  rw [List.getElem?_set, List.getElem?_set]
  by_cases at_j : j = k
  · subst at_j
    simp only [↓reduceIte, List.length_set, within_j, Option.some.injEq]
    by_cases isB : c = b
    · subst isB
      rw [Function.update_self]
      simp [different, ab]
    · rw [Function.update_of_ne isB]
      by_cases isA : c = a
      · subst isA
        simp
      · rw [Function.update_of_ne isA, before, second]
        simp [Ne.symm isA, Ne.symm isB]
  · by_cases at_i : i = k
    · subst at_i
      simp only [at_j, ↓reduceIte, within_i, Option.some.injEq]
      by_cases isB : c = b
      · subst isB
        simp
      · rw [Function.update_of_ne isB]
        by_cases isA : c = a
        · subst isA
          simp [at_j, Ne.symm isB]
        · rw [Function.update_of_ne isA, before, first]
          simp [Ne.symm isA, Ne.symm isB]
    · simp only [at_j, at_i, ↓reduceIte]
      by_cases isB : c = b
      · subst isB
        rw [Function.update_self]
        have : position c = some j := (indexes c j).mpr second
        rw [← before, this]
        simp [at_i, at_j]
      · rw [Function.update_of_ne isB]
        by_cases isA : c = a
        · subst isA
          have : position c = some i := (indexes c i).mpr first
          rw [Function.update_self, ← before, this]
          simp [at_i, at_j]
        · rw [Function.update_of_ne isA, before]

theorem pop (indexes : Indexes xs position) (last : xs[xs.length - 1]? = some a) :
    Indexes xs.dropLast (Function.update position a none) := by
  have found : position a = some (xs.length - 1) := (indexes a _).mpr last
  intro b i
  rw [List.getElem?_dropLast]
  by_cases same : b = a
  · subst same
    rw [Function.update_self]
    simp only [reduceCtorEq, false_iff]
    split
    · intro other
      have := Option.some.inj (((indexes b i).mpr other).symm.trans found)
      omega
    · simp
  · rw [Function.update_of_ne same, indexes b i]
    split
    · exact Iff.rfl
    · simp only [reduceCtorEq, iff_false]
      intro other
      have within := (List.getElem?_eq_some_iff.mp other).1
      obtain rfl : i = xs.length - 1 := by omega
      exact same (Option.some.inj (other.symm.trans last))

end Indexes

/-! ## Striking items off a list -/

section

variable {α : Type} [DecidableEq α]

/-- Every item of the list is struck off those expected; the answer is what remains. -/
def strike (expected : Multiset α) : List α → Option (Multiset α)
  | [] => some expected
  | item :: rest => if item ∈ expected then strike (expected.erase item) rest else none

theorem strike_eq_some {expected remaining : Multiset α} {items : List α} :
    strike expected items = some remaining ↔ expected = ↑items + remaining := by
  induction items generalizing expected with
  | nil =>
      rw [strike, Option.some.injEq, Multiset.coe_nil, Multiset.zero_add]
  | cons item rest ih =>
      rw [strike, ← Multiset.cons_coe, Multiset.cons_add]
      split
      · rename_i member
        rw [ih]
        constructor
        · intro rest
          rw [← rest, Multiset.cons_erase member]
        · intro all
          rw [all, Multiset.erase_cons_head]
      · rename_i absent
        constructor
        · nofun
        · intro all
          exact absurd (all ▸ Multiset.mem_cons_self item _) absent

theorem count_flatMap_finRange {n : Nat} (bucket : Fin n → List α) (a : α) :
    ((List.finRange n).flatMap bucket).count a = ∑ b, (bucket b).count a := by
  rw [List.count_flatMap, Fin.sum_univ_def]
  rfl

variable {β : Type}

theorem count_flatMap_keys {entries : List (α × β)} {items : α × β → List α}
    (keys : (entries.map Prod.fst).Nodup) (own : ∀ entry, ∀ a ∈ items entry, a = entry.1) {a : α} {b : β}
    (member : (a, b) ∈ entries) : (entries.flatMap items).count a = (items (a, b)).count a := by
  induction entries with
  | nil => cases member
  | cons entry rest ih =>
      rw [List.map_cons, List.nodup_cons] at keys
      rw [List.flatMap_cons, List.count_append]
      rcases List.mem_cons.mp member with same | later
      · rw [← same, Nat.add_eq_left, List.count_eq_zero]
        intro inRest
        obtain ⟨other, inRest, mine⟩ := List.mem_flatMap.mp inRest
        have key : other.1 = entry.1 := by rw [← own other a mine, ← same]
        exact keys.1 (key ▸ List.mem_map_of_mem inRest)
      · rw [ih keys.2 later, Nat.add_eq_right, List.count_eq_zero]
        intro mine
        have key : entry.1 = a := (own entry a mine).symm
        exact keys.1 (key ▸ List.mem_map_of_mem later)

theorem count_flatMap_absent {entries : List (α × β)} {items : α × β → List α}
    (own : ∀ entry, ∀ a ∈ items entry, a = entry.1) {a : α} (absent : ∀ b, (a, b) ∉ entries) :
    (entries.flatMap items).count a = 0 := by
  rw [List.count_eq_zero]
  intro inside
  obtain ⟨⟨key, b⟩, member, mine⟩ := List.mem_flatMap.mp inside
  have same := own (key, b) a mine
  exact absent b (same ▸ member)

end

/-! ## Replacing an element -/

section

variable {α β : Type} (f : α → Option β)

theorem filterMap_cons_perm (first : α) (rest : List α) :
    ((first :: rest).filterMap f).Perm (rest.filterMap f ++ (f first).toList) := by
  rw [List.filterMap_cons]
  cases f first with
  | none => simp
  | some image => exact (List.perm_append_singleton image _).symm

theorem filterMap_set_perm {elements : List α} {i : Nat} {old : α} (new : α) (found : elements[i]? = some old) :
    ((elements.set i new).filterMap f ++ (f old).toList).Perm (elements.filterMap f ++ (f new).toList) := by
  obtain ⟨within, same⟩ := List.getElem?_eq_some_iff.mp found
  have within' : i < (elements.set i new).length := by rwa [List.length_set]
  have before : (old :: elements.eraseIdx i).Perm elements := same ▸ List.getElem_cons_eraseIdx_perm within
  have after : (new :: elements.eraseIdx i).Perm (elements.set i new) := by
    have perm := List.getElem_cons_eraseIdx_perm within'
    rwa [List.getElem_set_self, List.eraseIdx_set_eq] at perm
  have after := (after.filterMap f).symm.trans (filterMap_cons_perm f new (elements.eraseIdx i))
  have before := (before.filterMap f).symm.trans (filterMap_cons_perm f old (elements.eraseIdx i))
  refine (after.append_right _).trans (List.Perm.trans ?_ (before.append_right _).symm)
  rw [List.append_assoc, List.append_assoc]
  exact List.perm_append_comm.append_left _

end

end BitCrystal.Data
