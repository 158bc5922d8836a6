import BitCrystal.MoneyText

namespace BitCrystal

/-! # The JSON reader -/

/-- `Value_impl`; a `double` is given by its bits. -/
inductive JsonValue where
  | obj (pairs : List (List Char × JsonValue))
  | array (values : List JsonValue)
  | str (text : List Char)
  | bool (b : Bool)
  | int (i : Int)
  | real (bits : BitVec 64)
  | null

/-- The parsers of Boost.Spirit that the grammar is made of. Each gives what it matches at the start of a text that
does not begin with white space, and what follows. -/
structure Spirit where
  /-- `lexeme_d[confix_p('"', *lex_escape_ch_p, '"')]`, with its quotes -/
  confix : List Char → Option (List Char × List Char)
  strictReal : List Char → Option (BitVec 64 × List Char)
  int64 : List Char → Option (Int × List Char)
  uint64 : List Char → Option (Nat × List Char)

def numeral (text : List Char) : Nat := Nat.ofDigitChars 10 text 0

/-- What a number can begin with. -/
def startsNumber (c : Char) : Bool := c.isDigit || c ∈ ['+', '-', '.']

/-- The documented behaviour of these parsers. -/
structure Spirit.Documented (spirit : Spirit) : Prop where
  confix_head : ∀ text result, spirit.confix text = some result → text.head? = some '"'
  strictReal_head : ∀ text result, spirit.strictReal text = some result → ∃ c ∈ text.head?, startsNumber c = true
  int64_head : ∀ text result, spirit.int64 text = some result → ∃ c ∈ text.head?, startsNumber c = true
  uint64_head : ∀ text result, spirit.uint64 text = some result → ∃ c ∈ text.head?, startsNumber c = true
  /-- A strict real number has a point or an exponent. -/
  strictReal_digits : ∀ text, (∀ c ∈ text, c.isDigit = true) → spirit.strictReal text = none
  /-- The integer parsers check for overflow. -/
  int64_digits : ∀ text, text ≠ [] → (∀ c ∈ text, c.isDigit = true) → spirit.int64 text =
    if numeral text < 2 ^ 63 then some ((numeral text : Int), []) else none
  uint64_digits : ∀ text, text ≠ [] → (∀ c ∈ text, c.isDigit = true) → spirit.uint64 text =
    if numeral text < 2 ^ 64 then some (numeral text, []) else none
  confix_shorter : ∀ text range rest, spirit.confix text = some (range, rest) → rest.length < text.length
  strictReal_shorter : ∀ text d rest, spirit.strictReal text = some (d, rest) → rest.length < text.length
  int64_shorter : ∀ text i rest, spirit.int64 text = some (i, rest) → rest.length < text.length
  uint64_shorter : ∀ text ui rest, spirit.uint64 text = some (ui, rest) → rest.length < text.length

/-- `get_int()` of a JSON integer, and any conversion to `int` -/
def getInt (value : Int) : Int := value.bmod (2 ^ 32)

theorem getInt_range (value : Int) : -2 ^ 31 ≤ getInt value ∧ getInt value < 2 ^ 31 := by
  have low := Int.le_bmod (x := value) (m := 2 ^ 32) (by decide)
  have high := Int.bmod_lt (x := value) (m := 2 ^ 32) (by decide)
  unfold getInt
  omega

theorem getInt_of_range {value : Int} (low : 0 ≤ value) (high : value < 2 ^ 31) : getInt value = value :=
  Int.bmod_eq_of_le_mul_two (by omega) (by omega)

/-! ## Strings -/

def hexToNum (c : Char) : Nat :=
  if '0' ≤ c ∧ c ≤ '9' then c.toNat - '0'.toNat
  else if 'a' ≤ c ∧ c ≤ 'f' then c.toNat - 'a'.toNat + 10
  else if 'A' ≤ c ∧ c ≤ 'F' then c.toNat - 'A'.toNat + 10
  else 0

/-- append_esc_char_and_incr_iter: what it appends and what it leaves. -/
def escChar (c2 : Char) (rest : List Char) : List Char × List Char :=
  match c2 with
  | 't' => (['\t'], rest)
  | 'b' => (['\x08'], rest)
  | 'f' => (['\x0c'], rest)
  | 'n' => (['\n'], rest)
  | 'r' => (['\r'], rest)
  | '\\' => (['\\'], rest)
  | '/' => (['/'], rest)
  | '"' => (['"'], rest)
  | 'x' =>
      match rest with
      | c1 :: c2 :: rest => ([Char.ofNat (hexToNum c1 * 16 + hexToNum c2)], rest)
      | rest => ([], rest)
  | 'u' =>
      match rest with
      -- a `char` keeps the last eight bits
      | _ :: _ :: c3 :: c4 :: rest => ([Char.ofNat (hexToNum c3 * 16 + hexToNum c4)], rest)
      | rest => ([], rest)
  | _ => ([], rest)

/-- The loop of substitute_esc_chars, for as many turns as there are characters. -/
def substituteEsc : Nat → List Char → List Char
  | fuel + 1, '\\' :: c2 :: rest =>
      let (appended, rest) := escChar c2 rest
      appended ++ substituteEsc fuel rest
  | fuel + 1, c :: rest => c :: substituteEsc fuel rest
  | _, text => text

/-- `get_str` of a match with its quotes. -/
def getStr (range : List Char) : List Char :=
  let text := (range.drop 1).dropLast
  if text.length < 2 then text else substituteEsc text.length text

/-! ## The grammar -/

namespace JsonReader

variable (spirit : Spirit)

/-- `string_` with its action. -/
def stringToken (text : List Char) : Option (List Char × List Char) :=
  (spirit.confix text).map fun found => (getStr found.1, found.2)

/-- `number_`; an unsigned number is stored in the same 64 bits as a signed one. -/
def number (text : List Char) : Option (JsonValue × List Char) :=
  match spirit.strictReal text with
  | some (d, rest) => some (.real d, rest)
  | none =>
      match spirit.int64 text with
      | some (i, rest) => some (.int i, rest)
      | none => (spirit.uint64 text).map fun found => (.int ((found.1 : Int).bmod (2 ^ 64)), found.2)

def trueWord : List Char := ['t', 'r', 'u', 'e']
def falseWord : List Char := ['f', 'a', 'l', 's', 'e']
def nullWord : List Char := ['n', 'u', 'l', 'l']

def literal (text : List Char) : Option (JsonValue × List Char) :=
  if trueWord.isPrefixOf text then some (.bool true, text.drop trueWord.length)
  else if falseWord.isPrefixOf text then some (.bool false, text.drop falseWord.length)
  else if nullWord.isPrefixOf text then some (.null, text.drop nullWord.length)
  else none

/-- `ch_p(']')[end_array] | eps_p[throw_not_array]` -/
def endArray (values : List JsonValue) : List Char → Except String (Option (JsonValue × List Char))
  | ']' :: rest => .ok (some (.array values, rest))
  | _ => .error "not an array"

/-- `ch_p('}')[end_obj] | eps_p[throw_not_object]` -/
def endObject (pairs : List (List Char × JsonValue)) : List Char → Except String (Option (JsonValue × List Char))
  | '}' :: rest => .ok (some (.obj pairs, rest))
  | _ => .error "not an object"

/-- The white space that is skipped before a token. -/
def skip (text : List Char) : List Char := text.dropWhile isSpace

mutual

/-- `value_`: no match is `none`, a thrown reason an error. -/
def value : Nat → List Char → Except String (Option (JsonValue × List Char))
  | 0, _ => .error "out of fuel"
  | fuel + 1, text =>
      let text := skip text
      match stringToken spirit text with
      | some (str, rest) => .ok (some (.str str, rest))
      | none =>
          match number spirit text with
          | some found => .ok (some found)
          | none =>
              match text with
              | '{' :: rest => members fuel [] rest
              | '[' :: rest => elements fuel [] rest
              | text => .ok (literal text)

def elements : Nat → List JsonValue → List Char → Except String (Option (JsonValue × List Char))
  | 0, _, _ => .error "out of fuel"
  | fuel + 1, values, text =>
      match value fuel text with
      | .error reason => .error reason
      -- a comma without a value is left where the bracket is expected
      | .ok none => if values.isEmpty then endArray values (skip text) else .error "not an array"
      | .ok (some (element, rest)) =>
          match skip rest with
          | ',' :: next => elements fuel (values ++ [element]) next
          | after => endArray (values ++ [element]) after

/-- What follows the opening brace or a comma of an object. -/
def members : Nat → List (List Char × JsonValue) → List Char → Except String (Option (JsonValue × List Char))
  | 0, _, _ => .error "out of fuel"
  | fuel + 1, pairs, text =>
      match stringToken spirit (skip text) with
      | none => if pairs.isEmpty then endObject pairs (skip text) else .error "not an object"
      | some (name, rest) =>
          match skip rest with
          | ':' :: rest =>
              match value fuel rest with
              | .error reason => .error reason
              | .ok none => .error "not a value"
              | .ok (some (member, rest)) =>
                  match skip rest with
                  | ',' :: next => members fuel (pairs ++ [(name, member)]) next
                  | after => endObject (pairs ++ [(name, member)]) after
          | _ => .error "no colon in pair"

end

/-- read_string: what follows the value is not looked at, and any exception is the answer false. -/
def readString (text : List Char) : Option JsonValue :=
  match value spirit (2 * text.length + 1) text with
  | .ok (some (read, _)) => some read
  | _ => none

/-! ## What is read -/

variable {spirit} {fuel : Nat} {text rest : List Char} {read : JsonValue}

theorem endArray_kind {values : List JsonValue} (closed : endArray values text = .ok (some (read, rest))) :
    read = .array values := by
  unfold endArray at closed
  split at closed
  · cases closed
    rfl
  · cases closed

theorem endObject_kind {pairs : List (List Char × JsonValue)}
    (closed : endObject pairs text = .ok (some (read, rest))) : read = .obj pairs := by
  unfold endObject at closed
  split at closed
  · cases closed
    rfl
  · cases closed

theorem elements_kind {values : List JsonValue}
    (parsed : elements spirit fuel values text = .ok (some (read, rest))) :
    ∃ all, read = .array all := by
  induction fuel generalizing values text with
  | zero =>
      unfold elements at parsed
      cases parsed
  | succ fuel ih =>
      unfold elements at parsed
      split at parsed
      · cases parsed
      · split at parsed
        · exact ⟨values, endArray_kind parsed⟩
        · cases parsed
      · split at parsed
        · exact ih parsed
        · exact ⟨_, endArray_kind parsed⟩

theorem members_kind {pairs : List (List Char × JsonValue)}
    (parsed : members spirit fuel pairs text = .ok (some (read, rest))) : ∃ all, read = .obj all := by
  induction fuel generalizing pairs text with
  | zero =>
      unfold members at parsed
      cases parsed
  | succ fuel ih =>
      unfold members at parsed
      split at parsed
      · split at parsed
        · exact ⟨pairs, endObject_kind parsed⟩
        · cases parsed
      · split at parsed
        · split at parsed
          · cases parsed
          · cases parsed
          · split at parsed
            · exact ih parsed
            · exact ⟨_, endObject_kind parsed⟩
        · cases parsed

theorem stringToken_none (documented : spirit.Documented) (head : text.head? ≠ some '"') :
    stringToken spirit text = none := by
  rw [stringToken, Option.map_eq_none_iff, Option.eq_none_iff_forall_ne_some]
  exact fun result found => head (documented.confix_head text result found)

theorem number_kind {found : JsonValue × List Char} (matched : number spirit text = some found) :
    (∃ d, found.1 = .real d) ∨ ∃ i, found.1 = .int i := by
  unfold number at matched
  split at matched
  · cases matched
    exact Or.inl ⟨_, rfl⟩
  · split at matched
    · cases matched
      exact Or.inr ⟨_, rfl⟩
    · obtain ⟨ui, -, rfl⟩ := Option.map_eq_some_iff.mp matched
      exact Or.inr ⟨_, rfl⟩

theorem number_none (documented : spirit.Documented) (head : ∀ c ∈ text.head?, startsNumber c = false) :
    number spirit text = none := by
  have unstarted : ¬∃ c ∈ text.head?, startsNumber c = true := by
    intro ⟨c, member, starts⟩
    rw [head c member] at starts
    cases starts
  have noReal : spirit.strictReal text = none := by
    rw [Option.eq_none_iff_forall_ne_some]
    exact fun result found => unstarted (documented.strictReal_head text result found)
  have noInt : spirit.int64 text = none := by
    rw [Option.eq_none_iff_forall_ne_some]
    exact fun result found => unstarted (documented.int64_head text result found)
  have noUint : spirit.uint64 text = none := by
    rw [Option.eq_none_iff_forall_ne_some]
    exact fun result found => unstarted (documented.uint64_head text result found)
  rw [number, noReal, noInt, noUint]
  rfl

theorem number_digits (documented : spirit.Documented) (nonempty : text ≠ [])
    (each : ∀ c ∈ text, c.isDigit = true) : number spirit text =
      if numeral text < 2 ^ 64 then some (.int ((numeral text : Int).bmod (2 ^ 64)), []) else none := by
  rw [number, documented.strictReal_digits text each, documented.int64_digits text nonempty each,
    documented.uint64_digits text nonempty each]
  by_cases signed : numeral text < 2 ^ 63
  · have same : (numeral text : Int).bmod (2 ^ 64) = numeral text :=
      Int.bmod_eq_of_le_mul_two (by omega) (by omega)
    have unsigned : numeral text < 2 ^ 64 := by omega
    rw [if_pos signed, if_pos unsigned, if_pos unsigned, same]
  · rw [if_neg signed]
    by_cases unsigned : numeral text < 2 ^ 64
    · rw [if_pos unsigned, if_pos unsigned]
      rfl
    · rw [if_neg unsigned, if_neg unsigned]
      rfl

theorem literal_none {c : Char} {tail : List Char} (notTrue : c ≠ 't') (notFalse : c ≠ 'f') (notNull : c ≠ 'n') :
    literal (c :: tail) = none := by
  have differs : ∀ first word, c ≠ first → (first :: word).isPrefixOf (c :: tail) = false := by
    intro first word different
    rw [List.isPrefixOf_cons_cons, beq_eq_false_iff_ne.mpr (Ne.symm different), Bool.false_and]
  rw [literal, trueWord, falseWord, nullWord, differs 't' _ notTrue, differs 'f' _ notFalse, differs 'n' _ notNull]
  rfl

theorem literal_kind {result : JsonValue × List Char} (found : literal text = some result) :
    (result.1 = .bool true ∧ trueWord.isPrefixOf text = true) ∨
      (result.1 = .bool false ∧ falseWord.isPrefixOf text = true) ∨ result.1 = .null := by
  unfold literal at found
  split at found
  · rename_i starts
    cases found
    exact Or.inl ⟨rfl, starts⟩
  · split at found
    · rename_i starts
      cases found
      exact Or.inr (Or.inl ⟨rfl, starts⟩)
    · split at found
      · cases found
        exact Or.inr (Or.inr rfl)
      · cases found

theorem value_cases {result : JsonValue × List Char} (parsed : value spirit (fuel + 1) text = .ok (some result)) :
    (∃ str, result.1 = .str str) ∨ (∃ d, result.1 = .real d) ∨ (∃ i, result.1 = .int i) ∨
      (∃ pairs, result.1 = .obj pairs) ∨ ((∃ values, result.1 = .array values) ∧ (skip text).head? = some '[') ∨
        literal (skip text) = some result := by
  unfold value at parsed
  dsimp only at parsed
  split at parsed
  · cases parsed
    exact Or.inl ⟨_, rfl⟩
  · split at parsed
    · rename_i found matched
      cases parsed
      cases number_kind matched with
      | inl real => exact Or.inr (Or.inl real)
      | inr int => exact Or.inr (Or.inr (Or.inl int))
    · split at parsed
      · exact Or.inr (Or.inr (Or.inr (Or.inl (members_kind parsed))))
      · rename_i head
        rw [head]
        exact Or.inr (Or.inr (Or.inr (Or.inr (Or.inl ⟨elements_kind parsed, rfl⟩))))
      · exact Or.inr (Or.inr (Or.inr (Or.inr (Or.inr (Except.ok.inj parsed)))))

theorem value_literal (fuel : Nat) {c : Char} {tail : List Char} (start : skip text = c :: tail)
    (noString : stringToken spirit (c :: tail) = none) (noNumber : number spirit (c :: tail) = none)
    (plain : c ≠ '{' ∧ c ≠ '[') : value spirit (fuel + 1) text = .ok (literal (c :: tail)) := by
  unfold value
  dsimp only
  rw [start, noString, noNumber]
  dsimp only
  split
  · rename_i brace
    cases brace
    exact absurd rfl plain.1
  · rename_i bracket
    cases bracket
    exact absurd rfl plain.2
  · rfl

theorem skip_of_head {c : Char} {tail : List Char} (visible : isSpace c = false) : skip (c :: tail) = c :: tail := by
  rw [skip, List.dropWhile_cons_of_neg (by simp [visible])]

theorem readString_eq_some : readString spirit text = some read ↔
    ∃ rest, value spirit (2 * text.length + 1) text = .ok (some (read, rest)) := by
  unfold readString
  split
  · rename_i found after parsed
    rw [parsed]
    simp
  · rename_i other
    apply iff_of_false nofun
    intro ⟨rest, parsed⟩
    exact other read rest parsed

theorem readString_literal {c : Char} {tail : List Char} (visible : isSpace c = false)
    (noString : stringToken spirit (c :: tail) = none) (noNumber : number spirit (c :: tail) = none)
    (plain : c ≠ '{' ∧ c ≠ '[') : readString spirit (c :: tail) = (literal (c :: tail)).map Prod.fst := by
  have parsed := value_literal (2 * (c :: tail).length) (skip_of_head visible) noString noNumber plain
  cases found : literal (c :: tail) with
  | none =>
      rw [found] at parsed
      unfold readString
      rw [parsed]
      rfl
  | some result =>
      rw [found] at parsed
      exact readString_eq_some.mpr ⟨result.2, parsed⟩

theorem readString_digits (documented : spirit.Documented) (nonempty : text ≠ [])
    (each : ∀ c ∈ text, c.isDigit = true) : readString spirit text =
      if numeral text < 2 ^ 64 then some (.int ((numeral text : Int).bmod (2 ^ 64))) else none := by
  have matched := number_digits documented nonempty each
  obtain ⟨c, tail, rfl⟩ := List.exists_cons_of_ne_nil nonempty
  have digit : c.isDigit = true := each c List.mem_cons_self
  have visible : isSpace c = false := isSpace_of_digit digit
  have noString : stringToken spirit (c :: tail) = none := by
    apply stringToken_none documented
    intro head
    cases head
    cases digit
  by_cases fits : numeral (c :: tail) < 2 ^ 64
  · rw [if_pos fits] at matched
    rw [if_pos fits, readString_eq_some]
    refine ⟨[], ?_⟩
    unfold value
    dsimp only
    rw [skip_of_head visible, noString, matched]
  · rw [if_neg fits] at matched
    have plain : c ≠ '{' ∧ c ≠ '[' := by
      apply And.intro
      · rintro rfl
        cases digit
      · rintro rfl
        cases digit
    rw [if_neg fits, readString_literal visible noString matched plain]
    have noLiteral : literal (c :: tail) = none := by
      apply literal_none
      · rintro rfl
        cases digit
      · rintro rfl
        cases digit
      · rintro rfl
        cases digit
    rw [noLiteral]
    rfl

theorem readString_letter (documented : spirit.Documented) {c : Char} {tail : List Char} (visible : isSpace c = false)
    (plain : c ∉ ['"', '{', '[']) (notNumber : startsNumber c = false) :
    readString spirit (c :: tail) = (literal (c :: tail)).map Prod.fst := by
  apply readString_literal visible
  · apply stringToken_none documented
    intro head
    cases head
    exact plain List.mem_cons_self
  · apply number_none documented
    intro first member
    cases member
    exact notNumber
  · apply And.intro
    · rintro rfl
      exact plain (by decide)
    · rintro rfl
      exact plain (by decide)

theorem readString_true (documented : spirit.Documented) (starts : trueWord.isPrefixOf text = true) :
    readString spirit text = some (.bool true) := by
  obtain ⟨rest, rfl⟩ := List.isPrefixOf_iff_prefix.mp starts
  exact readString_letter documented (by decide) (by decide) (by decide)

theorem readString_false (documented : spirit.Documented) (starts : falseWord.isPrefixOf text = true) :
    readString spirit text = some (.bool false) := by
  obtain ⟨rest, rfl⟩ := List.isPrefixOf_iff_prefix.mp starts
  exact readString_letter documented (by decide) (by decide) (by decide)

theorem readString_nil (documented : spirit.Documented) : readString spirit [] = none := by
  have noString : stringToken spirit [] = none := stringToken_none documented nofun
  have noNumber : number spirit [] = none := number_none documented nofun
  have parsed : value spirit (2 * 0 + 1) [] = .ok none := by
    unfold value
    dsimp only
    rw [show skip [] = [] from rfl, noString, noNumber]
    rfl
  rw [readString, List.length_nil, parsed]

theorem readString_array {values : List JsonValue} (parsed : readString spirit text = some (.array values)) :
    (skip text).head? = some '[' := by
  obtain ⟨rest, parsed⟩ := readString_eq_some.mp parsed
  rcases value_cases parsed with ⟨_, kind⟩ | ⟨_, kind⟩ | ⟨_, kind⟩ | ⟨_, kind⟩ | ⟨_, head⟩ | found
  · cases kind
  · cases kind
  · cases kind
  · cases kind
  · exact head
  · rcases literal_kind found with ⟨kind, _⟩ | ⟨kind, _⟩ | kind
    · cases kind
    · cases kind
    · cases kind

theorem readString_bool {b : Bool} (parsed : readString spirit text = some (.bool b)) :
    trueWord.isPrefixOf (skip text) = true ∨ falseWord.isPrefixOf (skip text) = true := by
  obtain ⟨rest, parsed⟩ := readString_eq_some.mp parsed
  rcases value_cases parsed with ⟨_, kind⟩ | ⟨_, kind⟩ | ⟨_, kind⟩ | ⟨_, kind⟩ | ⟨⟨_, kind⟩, _⟩ | found
  · cases kind
  · cases kind
  · cases kind
  · cases kind
  · cases kind
  · rcases literal_kind found with ⟨_, starts⟩ | ⟨_, starts⟩ | kind
    · exact Or.inl starts
    · exact Or.inr starts
    · cases kind

/-! ## The reader ends -/

theorem skip_length (text : List Char) : (skip text).length ≤ text.length :=
  (List.dropWhile_sublist isSpace (l := text)).length_le

theorem stringToken_shorter (documented : spirit.Documented) {str : List Char}
    (found : stringToken spirit text = some (str, rest)) : rest.length < text.length := by
  obtain ⟨matched, confix, same⟩ := Option.map_eq_some_iff.mp found
  cases same
  exact documented.confix_shorter _ _ _ confix

theorem number_shorter (documented : spirit.Documented) (found : number spirit text = some (read, rest)) :
    rest.length < text.length := by
  unfold number at found
  split at found
  · rename_i d after real
    cases found
    exact documented.strictReal_shorter _ _ _ real
  · split at found
    · rename_i i after int
      cases found
      exact documented.int64_shorter _ _ _ int
    · obtain ⟨matched, uint, same⟩ := Option.map_eq_some_iff.mp found
      cases same
      exact documented.uint64_shorter _ _ _ uint

theorem literal_shorter (found : literal text = some (read, rest)) : rest.length < text.length := by
  have dropped : ∀ word : List Char, 0 < word.length → word.isPrefixOf text = true →
      (text.drop word.length).length < text.length := by
    intro word some starts
    have fits := (List.isPrefixOf_iff_prefix.mp starts).length_le
    rw [List.length_drop]
    omega
  unfold literal at found
  split at found
  · rename_i starts
    cases found
    exact dropped trueWord (by decide) starts
  · split at found
    · rename_i starts
      cases found
      exact dropped falseWord (by decide) starts
    · split at found
      · rename_i starts
        cases found
        exact dropped nullWord (by decide) starts
      · cases found

theorem endArray_shorter {values : List JsonValue} (closed : endArray values text = .ok (some (read, rest))) :
    rest.length < text.length := by
  unfold endArray at closed
  split at closed
  · cases closed
    exact Nat.lt_succ_self _
  · cases closed

theorem endObject_shorter {pairs : List (List Char × JsonValue)}
    (closed : endObject pairs text = .ok (some (read, rest))) : rest.length < text.length := by
  unfold endObject at closed
  split at closed
  · cases closed
    exact Nat.lt_succ_self _
  · cases closed

/-- What is read leaves a shorter text. -/
theorem parse_shorter (documented : spirit.Documented) (fuel : Nat) :
    (∀ text read rest, value spirit fuel text = .ok (some (read, rest)) → rest.length < text.length) ∧
    (∀ values text read rest, elements spirit fuel values text = .ok (some (read, rest)) →
      rest.length < text.length) ∧
    (∀ pairs text read rest, members spirit fuel pairs text = .ok (some (read, rest)) →
      rest.length < text.length) := by
  induction fuel with
  | zero =>
      refine ⟨?_, ?_, ?_⟩
      · intro text read rest parsed
        unfold value at parsed
        cases parsed
      · intro values text read rest parsed
        unfold elements at parsed
        cases parsed
      · intro pairs text read rest parsed
        unfold members at parsed
        cases parsed
  | succ fuel ih =>
      obtain ⟨ofValue, ofElements, ofMembers⟩ := ih
      refine ⟨?_, ?_, ?_⟩
      · intro text read rest parsed
        apply Nat.lt_of_lt_of_le _ (skip_length text)
        unfold value at parsed
        dsimp only at parsed
        split at parsed
        · rename_i found
          cases parsed
          exact stringToken_shorter documented found
        · split at parsed
          · rename_i found
            cases parsed
            exact number_shorter documented found
          · split at parsed
            · rename_i head
              rw [head, List.length_cons]
              exact Nat.lt_succ_of_lt (ofMembers _ _ _ _ parsed)
            · rename_i head
              rw [head, List.length_cons]
              exact Nat.lt_succ_of_lt (ofElements _ _ _ _ parsed)
            · exact literal_shorter (Except.ok.inj parsed)
      · intro values text read rest parsed
        unfold elements at parsed
        split at parsed
        · cases parsed
        · split at parsed
          · exact Nat.lt_of_lt_of_le (endArray_shorter parsed) (skip_length text)
          · cases parsed
        · rename_i element after found
          have first := ofValue _ _ _ found
          have skipped := skip_length after
          split at parsed
          · rename_i next comma
            have later := ofElements _ _ _ _ parsed
            rw [comma, List.length_cons] at skipped
            omega
          · have closed := endArray_shorter parsed
            omega
      · intro pairs text read rest parsed
        unfold members at parsed
        split at parsed
        · split at parsed
          · exact Nat.lt_of_lt_of_le (endObject_shorter parsed) (skip_length text)
          · cases parsed
        · rename_i name after named
          have first := stringToken_shorter documented named
          have before := skip_length text
          have skipped := skip_length after
          split at parsed
          · rename_i body colon
            rw [colon, List.length_cons] at skipped
            split at parsed
            · cases parsed
            · cases parsed
            · rename_i member between found
              have inner := ofValue _ _ _ found
              have passed := skip_length between
              split at parsed
              · rename_i next comma
                have later := ofMembers _ _ _ _ parsed
                rw [comma, List.length_cons] at passed
                omega
              · have closed := endObject_shorter parsed
                omega
          · cases parsed

/-- Two units of fuel for each character are enough: more change nothing. -/
theorem fuel_enough (documented : spirit.Documented) (fuel : Nat) :
    (∀ text, 2 * text.length + 1 ≤ fuel → value spirit (fuel + 1) text = value spirit fuel text) ∧
    (∀ values text, 2 * text.length + 2 ≤ fuel →
      elements spirit (fuel + 1) values text = elements spirit fuel values text) ∧
    (∀ pairs text, 2 * text.length + 2 ≤ fuel →
      members spirit (fuel + 1) pairs text = members spirit fuel pairs text) := by
  induction fuel with
  | zero => exact ⟨fun _ few => absurd few (by omega), fun _ _ few => absurd few (by omega),
      fun _ _ few => absurd few (by omega)⟩
  | succ fuel ih =>
      obtain ⟨ofValue, ofElements, ofMembers⟩ := ih
      refine ⟨?_, ?_, ?_⟩
      · intro text few
        have skipped := skip_length text
        rw [value, value]
        split
        · rfl
        · split
          · rfl
          · split
            · rename_i head
              rw [head, List.length_cons] at skipped
              exact ofMembers _ _ (by omega)
            · rename_i head
              rw [head, List.length_cons] at skipped
              exact ofElements _ _ (by omega)
            · rfl
      · intro values text few
        rw [elements, elements, ofValue text (by omega)]
        split
        · rfl
        · rfl
        · rename_i element after found
          have first := (parse_shorter documented fuel).1 _ _ _ found
          have skipped := skip_length after
          split
          · rename_i next comma
            rw [comma, List.length_cons] at skipped
            exact ofElements _ _ (by omega)
          · rfl
      · intro pairs text few
        rw [members, members]
        split
        · rfl
        · rename_i name after named
          have first := stringToken_shorter documented named
          have before := skip_length text
          have skipped := skip_length after
          split
          · rename_i body colon
            rw [colon, List.length_cons] at skipped
            rw [ofValue body (by omega)]
            split
            · rfl
            · rfl
            · rename_i member between found
              have inner := (parse_shorter documented fuel).1 _ _ _ found
              have passed := skip_length between
              split
              · rename_i next comma
                rw [comma, List.length_cons] at passed
                exact ofMembers _ _ (by omega)
              · rfl
          · rfl

/-- The fuel of readString does not matter, so that it never runs out. -/
theorem value_fuel (documented : spirit.Documented) (text : List Char) (more : Nat) :
    value spirit (2 * text.length + 1 + more) text = value spirit (2 * text.length + 1) text := by
  induction more with
  | zero => rfl
  | succ more ih =>
      rw [← ih]
      exact (fuel_enough documented (2 * text.length + 1 + more)).1 text (by omega)

end JsonReader

end BitCrystal
