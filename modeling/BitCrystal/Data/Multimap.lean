import Mathlib.Tactic.Common
import Std.Data.ExtTreeMap

namespace BitCrystal.Data

/-! A map from keys to maps of items, as `std::map<K, std::map<I, V>>`. -/

abbrev Multimap (α β γ : Type) [Ord α] [Ord β] := Std.ExtTreeMap α (Std.ExtTreeMap β γ)

namespace Multimap

section

variable {α β γ : Type} [Ord α] [Std.TransOrd α] [Ord β] [Std.TransOrd β]

/-- The items under a key, of which there may be none. -/
def under (index : Multimap α β γ) (key : α) : Std.ExtTreeMap β γ :=
  index[key]?.getD ∅

/-- What `index[key]` does to the map by itself: a missing key gets an entry. -/
def touch (index : Multimap α β γ) (key : α) : Multimap α β γ :=
  index.insertIfNew key ∅

/-- `index[key].insert({item, value})` -/
def link (item : β) (value : γ) (index : Multimap α β γ) (key : α) : Multimap α β γ :=
  index.insert key ((index.under key).insertIfNew item value)

/-- `index[key].erase(item)`, after which an empty entry is erased. -/
def unlink (item : β) (index : Multimap α β γ) (key : α) : Multimap α β γ :=
  if ((index.under key).erase item).isEmpty then index.erase key
  else index.insert key ((index.under key).erase item)

/-- An entry without items. -/
def Vacant (index : Multimap α β γ) (key : α) : Prop :=
  index[key]? = some ∅

omit [Std.TransOrd β] in
theorem under_of_some {index : Multimap α β γ} {key : α} {items : Std.ExtTreeMap β γ}
    (found : index[key]? = some items) : index.under key = items := by
  rw [under, found]
  rfl

theorem vacant_link {item : β} {value : γ} {index : Multimap α β γ} {key other : α}
    (vacant : (link item value index key).Vacant other) : index.Vacant other := by
  rw [Vacant, link, Std.ExtTreeMap.getElem?_insert] at vacant
  split at vacant
  · rw [Option.some.injEq] at vacant
    have present : item ∈ (index.under key).insertIfNew item value := by simp
    rw [vacant] at present
    simp at present
  · exact vacant

theorem vacant_unlink {item : β} {index : Multimap α β γ} {key other : α}
    (vacant : (unlink item index key).Vacant other) : index.Vacant other := by
  unfold unlink at vacant
  split at vacant
  · rw [Vacant, Std.ExtTreeMap.getElem?_erase] at vacant
    split at vacant
    · contradiction
    · exact vacant
  · rename_i filled
    rw [Vacant, Std.ExtTreeMap.getElem?_insert] at vacant
    split at vacant
    · rw [Std.ExtTreeMap.isEmpty_iff] at filled
      exact absurd (Option.some.inj vacant) filled
    · exact vacant

theorem vacant_linkAll {item : β} {value : γ} {index : Multimap α β γ} {keys : List α} {key : α}
    (vacant : (keys.foldl (link item value) index).Vacant key) : index.Vacant key := by
  induction keys generalizing index with
  | nil => exact vacant
  | cons first rest ih => exact vacant_link (ih vacant)

theorem vacant_unlinkAll {item : β} {index : Multimap α β γ} {keys : List α} {key : α}
    (vacant : (keys.foldl (unlink item) index).Vacant key) : index.Vacant key := by
  induction keys generalizing index with
  | nil => exact vacant
  | cons first rest ih => exact vacant_unlink (ih vacant)

variable [Std.LawfulEqOrd α]

omit [Std.TransOrd β] in
theorem touch_cases (index : Multimap α β γ) (key other : α) :
    (index.touch key)[other]? = index[other]? ∨
      (key = other ∧ index[key]? = none ∧ (index.touch key)[other]? = some ∅) := by
  unfold touch
  rw [Std.ExtTreeMap.getElem?_insertIfNew]
  split
  · rename_i missing
    exact Or.inr ⟨Std.compare_eq_iff_eq.mp missing.1, Std.ExtTreeMap.getElem?_eq_none missing.2, rfl⟩
  · exact Or.inl rfl

omit [Std.TransOrd β] in
theorem under_touch (index : Multimap α β γ) (key other : α) :
    (index.touch key).under other = index.under other := by
  unfold under
  rcases touch_cases index key other with same | ⟨rfl, missing, made⟩
  · rw [same]
  · rw [missing, made]
    rfl

omit [Std.TransOrd β] in
theorem vacant_touch {index : Multimap α β γ} {key other : α} (vacant : (index.touch key).Vacant other) :
    index.Vacant other ∨ (key = other ∧ index[key]? = none) := by
  rcases touch_cases index key other with same | ⟨rfl, missing, _⟩
  · exact Or.inl (same.symm.trans vacant)
  · exact Or.inr ⟨rfl, missing⟩

variable [DecidableEq α] {item : β} {value : γ}

theorem under_link (index : Multimap α β γ) (key other : α) : (link item value index key).under other =
    if key = other then (index.under key).insertIfNew item value else index.under other := by
  rw [under, link, Std.ExtTreeMap.getElem?_insert]
  simp only [Std.compare_eq_iff_eq]
  split
  · rfl
  · rfl

theorem under_unlink (index : Multimap α β γ) (key other : α) : (unlink item index key).under other =
    if key = other then (index.under key).erase item else index.under other := by
  unfold unlink
  split
  · rename_i empty
    rw [Std.ExtTreeMap.isEmpty_iff] at empty
    rw [under, Std.ExtTreeMap.getElem?_erase]
    simp only [Std.compare_eq_iff_eq]
    split
    · exact empty.symm
    · rfl
  · rw [under, Std.ExtTreeMap.getElem?_insert]
    simp only [Std.compare_eq_iff_eq]
    split
    · rfl
    · rfl

/-! ## One item under many keys -/

variable [DecidableEq β] [Std.LawfulEqOrd β]

theorem getElem?_linkAll (index : Multimap α β γ) (keys : List α) (key : α) (other : β) :
    ((keys.foldl (link item value) index).under key)[other]? =
      if key ∈ keys ∧ other = item then ((index.under key)[other]?).or (some value)
      else (index.under key)[other]? := by
  induction keys generalizing index with
  | nil => simp
  | cons first rest ih =>
      rw [List.foldl_cons, ih, under_link]
      by_cases same : first = key
      · subst same
        by_cases own : other = item
        · subst own
          have inserted : ((index.under first).insertIfNew other value)[other]? =
              ((index.under first)[other]?).or (some value) := by
            rw [Std.ExtTreeMap.getElem?_insertIfNew]
            split
            · rename_i missing
              rw [Std.ExtTreeMap.getElem?_eq_none missing.2]
              rfl
            · rename_i present
              have member : other ∈ index.under first := by simpa using present
              obtain ⟨stored, found⟩ := Option.isSome_iff_exists.mp (Std.ExtTreeMap.mem_iff_isSome_getElem?.mp member)
              rw [found]
              rfl
          rw [if_pos rfl, inserted]
          cases found : (index.under first)[other]? <;> simp
        · have different : ¬ item = other := fun eq => own eq.symm
          simp [Std.ExtTreeMap.getElem?_insertIfNew, own, different]
      · have different : ¬ key = first := fun eq => same eq.symm
        simp [same, different]

theorem getElem?_unlinkAll (index : Multimap α β γ) (keys : List α) (key : α) (other : β) :
    ((keys.foldl (unlink item) index).under key)[other]? =
      if key ∈ keys ∧ other = item then none else (index.under key)[other]? := by
  induction keys generalizing index with
  | nil => simp
  | cons first rest ih =>
      rw [List.foldl_cons, ih, under_unlink]
      by_cases same : first = key
      · subst same
        by_cases own : other = item
        · subst own
          simp
        · have different : ¬ item = other := fun eq => own eq.symm
          simp [Std.ExtTreeMap.getElem?_erase, own, different]
      · have different : ¬ key = first := fun eq => same eq.symm
        simp [same, different]

end

end Multimap

end BitCrystal.Data
