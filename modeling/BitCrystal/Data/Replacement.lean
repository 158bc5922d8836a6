import Mathlib.Data.List.Infix
import Mathlib.Tactic.Common

namespace BitCrystal.Data

/-! # Search and replace

`replaceAll` replaces the occurrences of a text from left to right; what was put in is not
searched again. -/

variable {α : Type} [DecidableEq α]

/-- The next `skip` characters belong to an occurrence that is replaced already. -/
def replaceFrom (search replacement : List α) : Nat → List α → List α
  | _, [] => []
  | skip + 1, _ :: rest => replaceFrom search replacement skip rest
  | 0, c :: rest =>
      if search <+: c :: rest then replacement ++ replaceFrom search replacement (search.length - 1) rest
      else c :: replaceFrom search replacement 0 rest

def replaceAll (search replacement text : List α) : List α := replaceFrom search replacement 0 text

variable {search replacement : List α}

theorem replaceFrom_skip (front rest : List α) :
    replaceFrom search replacement front.length (front ++ rest) = replaceFrom search replacement 0 rest := by
  induction front with
  | nil => rfl
  | cons c front ih => rw [List.length_cons, List.cons_append, replaceFrom, ih]

theorem replaceAll_occurrence (some : search ≠ []) (rest : List α) :
    replaceAll search replacement (search ++ rest) = replacement ++ replaceAll search replacement rest := by
  cases search with
  | nil => exact absurd rfl some
  | cons c front =>
      have here : c :: front <+: c :: (front ++ rest) := List.prefix_append (c :: front) rest
      rw [replaceAll, List.cons_append, replaceFrom, if_pos here, List.length_cons, Nat.add_sub_cancel,
        replaceFrom_skip, replaceAll]

theorem replaceAll_piece {piece rest : List α}
    (apart : ∀ start < piece.length, ¬ search <+: piece.drop start ++ rest) :
    replaceAll search replacement (piece ++ rest) = piece ++ replaceAll search replacement rest := by
  induction piece with
  | nil => rfl
  | cons c piece ih =>
      have first : ¬ search <+: c :: (piece ++ rest) := apart 0 (by simp)
      have others (start : Nat) (inside : start < piece.length) : ¬ search <+: piece.drop start ++ rest :=
        apart (start + 1) (by simpa using inside)
      rw [List.cons_append, replaceAll, replaceFrom, if_neg first, List.cons_append]
      exact congrArg (c :: ·) (ih others)

theorem replaceAll_short {text : List α} (short : text.length < search.length) :
    replaceAll search replacement text = text := by
  have apart (start : Nat) (_ : start < text.length) : ¬ search <+: text.drop start ++ [] := by
    intro occurrence
    have le := occurrence.length_le
    rw [List.append_nil, List.length_drop] at le
    omega
  have kept : replaceAll search replacement (text ++ []) = text ++ replaceAll search replacement [] :=
    replaceAll_piece apart
  rw [List.append_nil] at kept
  rw [kept, replaceAll, replaceFrom, List.append_nil]

/-- Where the first occurrence starts. -/
def find (search : List α) : List α → Option Nat
  | [] => if search = [] then some 0 else none
  | c :: rest => if search <+: c :: rest then some 0 else (find search rest).map (· + 1)

theorem replaceAll_of_find_none {text : List α} (absent : find search text = none) :
    replaceAll search replacement text = text := by
  induction text with
  | nil => rfl
  | cons c text ih =>
      rw [find] at absent
      split at absent
      · cases absent
      · rename_i elsewhere
        rw [replaceAll, replaceFrom, if_neg elsewhere]
        exact congrArg (c :: ·) (ih (Option.map_eq_none_iff.mp absent))

theorem replaceAll_of_find_some {text : List α} {start : Nat} (some : search ≠ []) (found : find search text = Option.some start) :
    replaceAll search replacement text =
      text.take start ++ replacement ++ replaceAll search replacement (text.drop (start + search.length)) := by
  induction text generalizing start with
  | nil =>
      rw [find, if_neg some] at found
      cases found
  | cons c text ih =>
      rw [find] at found
      split at found
      case isTrue here =>
        cases found
        obtain ⟨rest, split⟩ := here
        rw [← split, replaceAll_occurrence some, List.take_zero, Nat.zero_add, List.drop_left, List.nil_append]
      case isFalse elsewhere =>
        obtain ⟨start', later, rfl⟩ := Option.map_eq_some_iff.mp found
        have rest := ih later
        rw [replaceAll, replaceFrom, if_neg elsewhere, List.take_succ_cons, List.cons_append, List.cons_append,
          Nat.add_right_comm, List.drop_succ_cons]
        exact congrArg (c :: ·) rest

end BitCrystal.Data
