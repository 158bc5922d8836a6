import Mathlib.Data.List.Sort

namespace BitCrystal.Data

/-! A list kept in the order of its keys, and the pages of a list. -/

section

variable {α : Type} (key : α → Int)

/-- `insert` of a `std::multimap`: after the items whose key is not greater. -/
def insertByKey (items : List α) (item : α) : List α :=
  items.orderedInsert (fun left right => key left < key right) item

def Ascending (items : List α) : Prop := items.Pairwise fun left right => key left ≤ key right

theorem insertByKey_perm (items : List α) (item : α) : (insertByKey key items item).Perm (item :: items) :=
  List.perm_orderedInsert _ item items

theorem insertByKey_ascending {items : List α} (item : α) (ascending : Ascending key items) :
    Ascending key (insertByKey key items item) := by
  induction items with
  | nil => exact List.pairwise_singleton _ _
  | cons first rest ih =>
      obtain ⟨least, sorted⟩ := List.pairwise_cons.mp ascending
      rw [insertByKey, List.orderedInsert_cons]
      by_cases before : key item < key first
      · rw [if_pos before]
        apply List.pairwise_cons.mpr ⟨?_, ascending⟩
        intro other member
        cases member with
        | head => exact Int.le_of_lt before
        | tail _ later => exact Int.le_trans (Int.le_of_lt before) (least other later)
      · rw [if_neg before]
        apply List.pairwise_cons.mpr ⟨?_, ih sorted⟩
        intro other member
        cases List.mem_cons.mp ((insertByKey_perm key rest item).mem_iff.mp member) with
        | inl new => exact new ▸ Int.not_lt.mp before
        | inr later => exact least other later

theorem foldl_insertByKey_perm (added items : List α) :
    (added.foldl (insertByKey key) items).Perm (items ++ added) := by
  induction added generalizing items with
  | nil => rw [List.append_nil]; rfl
  | cons item rest ih =>
      rw [List.foldl_cons]
      apply (ih _).trans
      apply ((insertByKey_perm key items item).append_right rest).trans
      exact List.perm_middle.symm

theorem foldl_insertByKey_ascending (added : List α) {items : List α} (ascending : Ascending key items) :
    Ascending key (added.foldl (insertByKey key) items) := by
  induction added generalizing items with
  | nil => exact ascending
  | cons item rest ih => exact ih (insertByKey_ascending key item ascending)

end

section

variable {α : Type} {items read rest : List α} {count start : Nat}

/-- `count` items from the one at `start` on, as many as there are. -/
def page (items : List α) (count start : Nat) : List α := (items.drop start).take count

theorem page_append (enough : rest = [] ∨ start + count ≤ read.length) :
    page (read ++ rest) count start = page read count start := by
  cases enough with
  | inl none => rw [none, List.append_nil]
  | inr within =>
      unfold page
      rw [List.drop_append_of_le_length (by omega), List.take_append_of_le_length (by rw [List.length_drop]; omega)]

theorem page_beyond (beyond : items.length ≤ start) : page items count start = [] := by
  rw [page, List.drop_eq_nil_of_le beyond, List.take_nil]

theorem flatMap_page (items : List α) (count number : Nat) :
    ((List.range number).flatMap fun turn => page items count (turn * count)) = items.take (number * count) := by
  induction number with
  | zero => simp
  | succ number ih =>
      rw [List.range_succ, List.flatMap_append, ih, List.flatMap_singleton, page, Nat.succ_mul, List.take_add]

end

end BitCrystal.Data
