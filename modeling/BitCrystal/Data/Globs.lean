import Mathlib.Computability.Language

namespace BitCrystal.Data

/-! Glob patterns over any alphabet, and the languages they denote. -/

inductive GlobAtom (α : Type) where
  | literal (symbol : α)
  /-- Any one symbol. -/
  | one
  /-- Any string, the empty one included. -/
  | many
deriving DecidableEq

variable {α : Type}

def GlobAtom.language : GlobAtom α → Language α
  | .literal symbol => {[symbol]}
  | .one => {word | ∃ symbol, word = [symbol]}
  | .many => ⊤

def globLanguage (pattern : List (GlobAtom α)) : Language α := (pattern.map GlobAtom.language).prod

variable {pattern : List (GlobAtom α)} {symbol first : α} {rest word : List α}

theorem mem_globLanguage_nil : word ∈ globLanguage ([] : List (GlobAtom α)) ↔ word = [] :=
  Language.mem_one word

theorem mem_globLanguage_cons {atom : GlobAtom α} : word ∈ globLanguage (atom :: pattern) ↔
    ∃ before ∈ atom.language, ∃ after ∈ globLanguage pattern, before ++ after = word := by
  rw [globLanguage, List.map_cons, List.prod_cons]
  exact Language.mem_mul

theorem mem_globLanguage_literal :
    word ∈ globLanguage (.literal symbol :: pattern) ↔ ∃ rest ∈ globLanguage pattern, word = symbol :: rest := by
  rw [mem_globLanguage_cons]
  constructor
  · rintro ⟨before, rfl, after, member, rfl⟩
    exact ⟨after, member, rfl⟩
  · rintro ⟨rest, member, rfl⟩
    exact ⟨[symbol], rfl, rest, member, rfl⟩

theorem mem_globLanguage_one :
    word ∈ globLanguage (.one :: pattern) ↔ ∃ symbol, ∃ rest ∈ globLanguage pattern, word = symbol :: rest := by
  rw [mem_globLanguage_cons]
  constructor
  · rintro ⟨before, ⟨symbol, rfl⟩, after, member, rfl⟩
    exact ⟨symbol, after, member, rfl⟩
  · rintro ⟨symbol, rest, member, rfl⟩
    exact ⟨[symbol], ⟨symbol, rfl⟩, rest, member, rfl⟩

theorem mem_globLanguage_many :
    word ∈ globLanguage (.many :: pattern) ↔
      word ∈ globLanguage pattern ∨ ∃ first rest, word = first :: rest ∧ rest ∈ globLanguage (.many :: pattern) := by
  simp only [mem_globLanguage_cons]
  constructor
  · rintro ⟨before, free, after, member, rfl⟩
    cases before with
    | nil => exact .inl member
    | cons first before => exact .inr ⟨first, before ++ after, rfl, before, free, after, member, rfl⟩
  · rintro (member | ⟨first, _, rfl, before, free, after, member, rfl⟩)
    · exact ⟨[], trivial, word, member, rfl⟩
    · exact ⟨first :: before, trivial, after, member, rfl⟩

end BitCrystal.Data
