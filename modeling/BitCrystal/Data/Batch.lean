import Std.Data.ExtTreeMap
import Mathlib.Tactic.Common

namespace BitCrystal.Data

/-! Batches of changes to a finite map.  A change replaces the value under a key,
or removes it; the changes of a batch are kept in a map of their own. -/

variable {K V W : Type} {cmp : K → K → Ordering}

section

variable [Std.TransCmp cmp]

/-- The value under one key becomes `value`. -/
def change (table : Std.ExtTreeMap K W cmp) (key : K) (value : Option W) : Std.ExtTreeMap K W cmp :=
  match value with
  | some value => table.insert key value
  | none => table.erase key

/-- What a batch does when each of its values is written as `write` says. -/
def applyBatch (write : V → Option W) (batch : Std.ExtTreeMap K V cmp) (table : Std.ExtTreeMap K W cmp) :
    Std.ExtTreeMap K W cmp :=
  batch.foldl (fun table key value => change table key (write value)) table

end

variable [Std.TransCmp cmp] [Std.LawfulEqCmp cmp]

theorem change_same (table : Std.ExtTreeMap K W cmp) (key : K) (value : Option W) :
    (change table key value)[key]? = value := by
  cases value with
  | none => simp [change]
  | some value => simp [change]

theorem change_other (table : Std.ExtTreeMap K W cmp) {key other : K} (value : Option W) (different : key ≠ other) :
    (change table key value)[other]? = table[other]? := by
  have notEq : cmp key other ≠ .eq := fun same => different (Std.LawfulEqCmp.eq_of_compare same)
  cases value with
  | none => simp [change, Std.ExtTreeMap.getElem?_erase, notEq]
  | some value => simp [change, Std.ExtTreeMap.getElem?_insert, notEq]

private theorem foldl_change_absent (write : V → Option W) {changes : List (K × V)} {key : K}
    (absent : ∀ entry ∈ changes, entry.1 ≠ key) (table : Std.ExtTreeMap K W cmp) :
    (changes.foldl (fun table entry => change table entry.1 (write entry.2)) table)[key]? = table[key]? := by
  induction changes generalizing table with
  | nil => rfl
  | cons first rest ih =>
      rw [List.foldl_cons, ih fun entry member => absent entry (List.mem_cons_of_mem first member)]
      exact change_other table (write first.2) (absent first List.mem_cons_self)

private theorem foldl_change_present (write : V → Option W) {changes : List (K × V)} {key : K} {value : V}
    (distinct : changes.Pairwise fun one other => ¬ cmp one.1 other.1 = .eq) (present : (key, value) ∈ changes)
    (table : Std.ExtTreeMap K W cmp) :
    (changes.foldl (fun table entry => change table entry.1 (write entry.2)) table)[key]? = write value := by
  induction changes generalizing table with
  | nil => contradiction
  | cons first rest ih =>
      obtain ⟨apart, distinct⟩ := List.pairwise_cons.mp distinct
      rw [List.foldl_cons]
      cases List.mem_cons.mp present with
      | inl same =>
          subst same
          have absent : ∀ entry ∈ rest, entry.1 ≠ key := by
            intro entry member same
            exact apart entry member (by rw [same]; exact Std.ReflCmp.compare_self)
          rw [foldl_change_absent write absent]
          exact change_same table key (write value)
      | inr later => exact ih distinct later _

theorem getElem?_applyBatch (write : V → Option W) (batch : Std.ExtTreeMap K V cmp)
    (table : Std.ExtTreeMap K W cmp) (key : K) :
    (applyBatch write batch table)[key]? =
      match batch[key]? with
      | some value => write value
      | none => table[key]? := by
  rw [applyBatch, Std.ExtTreeMap.foldl_eq_foldl_toList]
  cases found : batch[key]? with
  | some value =>
      exact foldl_change_present write Std.ExtTreeMap.distinct_keys_toList
        (Std.ExtTreeMap.mem_toList_iff_getElem?_eq_some.mpr found) table
  | none =>
      apply foldl_change_absent
      intro entry member same
      have present := Std.ExtTreeMap.mem_toList_iff_getElem?_eq_some.mp
        (show (entry.1, entry.2) ∈ batch.toList from member)
      rw [same, found] at present
      contradiction

end BitCrystal.Data
