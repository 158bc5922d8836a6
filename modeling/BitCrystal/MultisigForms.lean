import BitCrystal.MultisigArguments

namespace BitCrystal

open JsonReader MultisigAddress

/-! # What createmultisigaddressex can pass on -/

section

variable {spirit : Spirit} {param : JsonValue} {state : Collected} {i size : Int} {params args : List JsonValue}
  {call : MultisigCall}

namespace MultisigAddress.Collected

/-- All numbers are `int` values. -/
structure InRange (state : Collected) : Prop where
  nRequired : int32Range state.nRequired
  numbers : ∀ n, .int n ∈ state.newParams → n < 2 ^ 31

theorem start_inRange : start.InRange := ⟨by decide, nofun⟩

theorem InRange.count (inRange : state.InRange) (size : Int) :
    int32Range (if state.nRequired = 0 then getInt size else state.nRequired) := by
  split
  · exact getInt_range size
  · exact inRange.nRequired

theorem InRange.pushArray (inRange : state.InRange) (d : List JsonValue) : (state.pushArray d).InRange := by
  refine ⟨inRange.count d.length, ?_⟩
  intro n member
  rw [pushArray_newParams] at member
  cases List.mem_append.mp member with
  | inl before => exact inRange.numbers n before
  | inr new =>
      cases List.mem_cons.mp new with
      | inl same =>
          rw [JsonValue.int.inj same]
          exact (inRange.count d.length).2
      | inr array => cases List.mem_singleton.mp array

theorem InRange.pushArr (inRange : state.InRange) : state.pushArr.InRange := by
  unfold Collected.pushArr
  dsimp only
  split
  · refine ⟨inRange.count state.arr.length, ?_⟩
    intro n member
    cases List.mem_append.mp member with
    | inl before => exact inRange.numbers n before
    | inr new =>
        cases List.mem_cons.mp new with
        | inl same =>
            rw [JsonValue.int.inj same]
            exact (inRange.count state.arr.length).2
        | inr array => cases List.mem_singleton.mp array
  · exact ⟨inRange.count state.arr.length, inRange.numbers⟩

theorem InRange.pushStr (inRange : state.InRange) (str : List Char) : (state.pushStr str).InRange :=
  ⟨inRange.nRequired, inRange.numbers⟩

theorem InRange.pushTrue (inRange : state.InRange) : state.pushTrue.InRange := by
  refine ⟨inRange.nRequired, ?_⟩
  intro n member
  cases List.mem_append.mp member with
  | inl before => exact inRange.numbers n before
  | inr new => cases List.mem_singleton.mp new

theorem InRange.turn (inRange : state.InRange) (isFirst isEnd : Bool) (myval : JsonValue) :
    (state.turn isFirst isEnd myval).InRange := by
  unfold Collected.turn
  split
  · cases myval with
    | str str => exact inRange.pushStr str
    | int n => exact ⟨getInt_range n, inRange.numbers⟩
    | array d => exact inRange.pushArray d
    | _ => exact inRange
  · split
    · cases myval with
      | str str =>
          dsimp only
          split
          · exact (inRange.pushStr str).pushArr
          · exact inRange.pushArr.pushTrue
      | array d =>
          dsimp only
          split
          · exact inRange
          · exact inRange.pushArray d
      | _ => exact inRange
    · cases myval with
      | str str =>
          dsimp only
          split
          · exact inRange
          · exact inRange.pushStr str
      | _ => exact inRange

theorem InRange.turns (inRange : state.InRange) : (turns spirit size i params state).InRange := by
  induction params generalizing i state with
  | nil => exact inRange
  | cons param rest ih =>
      rw [Collected.turns]
      split
      · exact ih (inRange.turn _ _ _)
      · exact inRange

/-- Values of the arguments, at most `count` of them. -/
structure Gathered (spirit : Spirit) (args : List JsonValue) (count : Int) (texts : List (List Char)) : Prop where
  few : (texts.length : Int) ≤ count
  values : ∀ text ∈ texts, ∃ param ∈ args, normalise spirit param = .str text

/-- All strings are values of the arguments before `count`, and all arrays consist of such strings. -/
structure From (spirit : Spirit) (args : List JsonValue) (count : Int) (state : Collected) : Prop where
  arr : Gathered spirit args count state.arr
  arrays : ∀ d, .array d ∈ state.newParams → ∃ texts, d = texts.map .str ∧ Gathered spirit args count texts

theorem Gathered.mono {count more : Int} {texts : List (List Char)} (gathered : Gathered spirit args count texts)
    (fewer : count ≤ more) : Gathered spirit args more texts :=
  ⟨Int.le_trans gathered.few fewer, gathered.values⟩

theorem From.mono {count more : Int} (kept : state.From spirit args count) (fewer : count ≤ more) :
    state.From spirit args more := by
  refine ⟨kept.arr.mono fewer, ?_⟩
  intro d member
  obtain ⟨texts, same, gathered⟩ := kept.arrays d member
  exact ⟨texts, same, gathered.mono fewer⟩

theorem start_from (spirit : Spirit) (args : List JsonValue) : start.From spirit args 0 := by
  refine ⟨⟨Int.le_refl 0, ?_⟩, ?_⟩
  · intro text member
    cases member
  · intro d member
    cases member

theorem From.pushStr {str : List Char} (kept : state.From spirit args i) (member : param ∈ args)
    (stands : normalise spirit param = .str str) : (state.pushStr str).From spirit args (i + 1) := by
  refine ⟨⟨?_, ?_⟩, (kept.mono (by omega)).arrays⟩
  · have few := kept.arr.few
    show ((state.arr ++ [str]).length : Int) ≤ i + 1
    rw [List.length_append, List.length_singleton]
    omega
  · intro text among
    cases List.mem_append.mp among with
    | inl before => exact kept.arr.values text before
    | inr new =>
        cases List.mem_singleton.mp new
        exact ⟨param, member, stands⟩

theorem From.pushArr (kept : state.From spirit args i) : state.pushArr.From spirit args i := by
  unfold Collected.pushArr
  dsimp only
  split
  · refine ⟨kept.arr, ?_⟩
    intro d member
    cases List.mem_append.mp member with
    | inl before => exact kept.arrays d before
    | inr new =>
        cases List.mem_cons.mp new with
        | inl number => cases number
        | inr array =>
            cases List.mem_singleton.mp array
            exact ⟨state.arr, rfl, kept.arr⟩
  · exact ⟨kept.arr, kept.arrays⟩

theorem From.pushTrue (kept : state.From spirit args i) : state.pushTrue.From spirit args i := by
  refine ⟨kept.arr, ?_⟩
  intro d member
  cases List.mem_append.mp member with
  | inl before => exact kept.arrays d before
  | inr new => cases List.mem_singleton.mp new

theorem From.turn (kept : state.From spirit args i) (member : param ∈ args)
    (noArray : ∀ d, normalise spirit param ≠ .array d) (isFirst isEnd : Bool) :
    (state.turn isFirst isEnd (normalise spirit param)).From spirit args (i + 1) := by
  have same : state.From spirit args (i + 1) := kept.mono (by omega)
  unfold Collected.turn
  cases stands : normalise spirit param with
  | array d => exact absurd stands (noArray d)
  | str str =>
      have pushed := kept.pushStr member stands
      dsimp only
      split
      · exact pushed
      · split
        · split
          · exact pushed.pushArr
          · exact same.pushArr.pushTrue
        · split
          · exact same
          · exact pushed
  | int n =>
      dsimp only
      split
      · exact ⟨same.arr, same.arrays⟩
      · split
        · exact same
        · exact same
  | _ =>
      dsimp only
      split
      · exact same
      · split
        · exact same
        · exact same

theorem From.turns (kept : state.From spirit args i) (members : ∀ param ∈ params, param ∈ args)
    (noArrays : ∀ param ∈ args, ∀ d, normalise spirit param ≠ .array d) (within : i ≤ size) :
    (turns spirit size i params state).From spirit args size := by
  induction params generalizing i state with
  | nil => exact kept.mono within
  | cons param rest ih =>
      have member := members param List.mem_cons_self
      rw [Collected.turns]
      split
      · apply ih (kept.turn member (noArrays param member) _ _) _ (by omega)
        exact fun other later => members other (List.mem_cons_of_mem param later)
      · exact kept.mono within

end MultisigAddress.Collected

open Collected

/-! ## The exact condition -/

theorem passed_eq_some {new : List JsonValue} (passedOn : passed spirit args = some new) :
    1 ≤ getInt args.length ∧ (turns spirit (getInt args.length) 0 args start).newParams = new := by
  unfold passed at passedOn
  dsimp only at passedOn
  by_cases none : getInt args.length < 1
  · rw [if_pos none] at passedOn
    cases passedOn
  · rw [if_neg none] at passedOn
    exact ⟨Int.not_lt.mp none, Option.some.inj passedOn⟩

theorem expected_number (call : MultisigCall) :
    JsonValue.int ((call.required.getD call.keys.length : Nat) : Int) ∈ call.expected :=
  List.mem_cons_self

theorem expected_array (call : MultisigCall) : JsonValue.array (call.keys.map .str) ∈ call.expected :=
  List.mem_cons_of_mem _ List.mem_cons_self

theorem numberArgs_length (numbered : call.NumberArgs args) : args.length ≤ 1 := by
  unfold MultisigCall.NumberArgs at numbered
  split at numbered
  · rw [numbered]
    decide
  · obtain ⟨param, rfl, _⟩ := numbered
    exact Nat.le_refl 1

theorem setArgs_length (documented : spirit.Documented) (given : call.SetArgs args) : args.length ≤ 1 := by
  rcases setArgs_cases documented given with ⟨_, param, rfl, _⟩ | ⟨_, rfl⟩
  · exact Nat.le_refl 1
  · decide

theorem getInt_large {size : Nat} (large : 2 ^ 31 ≤ size) : getInt size + 2 ^ 32 ≤ size := by
  have below := (getInt_range size).2
  obtain ⟨turns, difference⟩ : ((2 ^ 32 : Nat) : Int) ∣ (size : Int) - getInt size := Int.dvd_self_sub_bmod
  omega

theorem str_map_injective {keys texts : List (List Char)} (same : keys.map JsonValue.str = texts.map .str) :
    keys = texts :=
  List.map_injective_iff.mpr (fun _ _ equal => JsonValue.str.inj equal) same

theorem accepted_single {number set : List JsonValue} (documented : spirit.Documented)
    (keys : ∀ k ∈ call.keys, IsKey k) (numbered : call.NumberArgs number) (given : call.SetArgs set)
    (small : ∀ n, call.required = some n → n < 2 ^ 31)
    (passedOn : passed spirit (number ++ (call.keys.map .str ++ set)) = some call.expected) :
    (number ++ (call.keys.map JsonValue.str ++ set)).length < 2 ^ 31 ∧
      (∀ k ∈ call.keys, trueWord.isPrefixOf k = false ∧ falseWord.isPrefixOf k = false) ∧
        (call.keys = [] → call.set = true) := by
  obtain ⟨positive, new⟩ := passed_eq_some passedOn
  have noArrays : ∀ param ∈ number ++ (call.keys.map JsonValue.str ++ set), ∀ d,
      normalise spirit param ≠ .array d := by
    intro param member d stands
    rcases List.mem_append.mp member with among | member
    · cases required : call.required with
      | none =>
          rw [MultisigCall.NumberArgs, required] at numbered
          have noNumber : number = [] := numbered
          rw [noNumber] at among
          cases among
      | some n =>
          rw [MultisigCall.NumberArgs, required] at numbered
          obtain ⟨first, rfl, denotes⟩ := numbered
          cases List.mem_singleton.mp among
          rw [normalise_number documented denotes (small n required)] at stands
          cases stands
    · rcases List.mem_append.mp member with among | among
      · obtain ⟨k, key, rfl⟩ := List.mem_map.mp among
        exact (keys k key).normalise_not_array documented d stands
      · rcases setArgs_cases documented given with ⟨_, word, rfl, truth⟩ | ⟨_, rfl⟩
        · cases List.mem_singleton.mp among
          rw [truth] at stands
          cases stands
        · cases among
  have initial := start_from spirit (number ++ (call.keys.map JsonValue.str ++ set))
  have kept := initial.turns (fun _ member => member) noArrays
    (show 0 ≤ getInt (number ++ (call.keys.map JsonValue.str ++ set)).length by omega)
  obtain ⟨texts, same, gathered⟩ := kept.arrays _ (new ▸ expected_array call)
  cases str_map_injective same
  refine ⟨?_, ?_, ?_⟩
  · by_contra large
    have gap := getInt_large (Nat.not_lt.mp large)
    have few := gathered.few
    have one := numberArgs_length numbered
    have other := setArgs_length documented given
    simp only [List.length_append, List.length_map] at gap few
    omega
  · intro k member
    obtain ⟨param, -, stands⟩ := gathered.values k member
    exact normalise_str documented stands (keys k member).notTrue (keys k member).notFalse
  · intro none
    rcases setArgs_cases documented given with ⟨flagged, _⟩ | ⟨unset, rfl⟩
    · exact flagged
    · exfalso
      rw [none, List.map_nil, List.append_nil, List.append_nil] at passedOn
      cases required : call.required with
      | none =>
          rw [MultisigCall.NumberArgs, required] at numbered
          have noNumber : number = [] := numbered
          rw [noNumber] at passedOn
          exact absurd (passed_eq_some passedOn).1 (by decide)
      | some n =>
          rw [MultisigCall.NumberArgs, required] at numbered
          obtain ⟨param, rfl, denotes⟩ := numbered
          have stands := normalise_number documented denotes (small n required)
          have alone : (turns spirit 1 0 [param] start).newParams = [] := by
            rw [turns_last (by decide), stands]
            rfl
          rw [passed_eq (List.cons_ne_nil _ _) (by simp)] at passedOn
          have nothing := alone.symm.trans (Option.some.inj passedOn)
          cases nothing

theorem accepted_of_passed (documented : spirit.Documented) (described : call.Describes spirit args)
    (keys : ∀ k ∈ call.keys, IsKey k) (positive : ∀ n, call.required = some n → 1 ≤ n)
    (passedOn : passed spirit args = some call.expected) : call.Accepted args.length := by
  obtain ⟨least, new⟩ := passed_eq_some passedOn
  have inRange : (turns spirit (getInt args.length) 0 args start).InRange := start_inRange.turns
  have number := inRange.numbers _ (new ▸ expected_number call)
  have small : ∀ n, call.required = some n → n < 2 ^ 31 := by
    intro n required
    rw [required, Option.getD_some] at number
    omega
  have count : call.required = none → call.keys.length < 2 ^ 31 := by
    intro required
    rw [required, Option.getD_none] at number
    omega
  obtain ⟨first, keyArgs, set, rfl, numbered, keyed, given⟩ := described
  cases form : call.asArray with
  | false =>
      rw [MultisigCall.KeyArgs, if_neg (by simp [form])] at keyed
      subst keyed
      obtain ⟨short, single, present⟩ := accepted_single documented keys numbered given small passedOn
      exact ⟨small, short, count, by simp [form], fun _ => single, fun _ => present⟩
  | true =>
      rw [MultisigCall.KeyArgs, if_pos form] at keyed
      obtain ⟨param, rfl, denotes⟩ := keyed
      have one := numberArgs_length numbered
      have other := setArgs_length documented given
      have short : (first ++ ([param] ++ set)).length < 2 ^ 31 := by
        rw [List.length_append, List.length_append, List.length_singleton]
        omega
      refine ⟨small, short, count, ?_, by simp [form], by simp [form]⟩
      intro _ given' flagged
      cases required : call.required with
      | none => exact absurd required given'
      | some n =>
          rw [MultisigCall.NumberArgs, required] at numbered
          obtain ⟨numberArg, rfl, denotesNumber⟩ := numbered
          have range := small n required
          have least := positive n required
          have stands := normalise_number documented denotesNumber range
          rcases setArgs_cases documented given with ⟨_, word, rfl, truth⟩ | ⟨unset, _⟩
          · have dropped := turns_dropped stands (normalise_keys denotes) truth
            rw [List.singleton_append, List.singleton_append] at passedOn short
            rw [passed_eq (List.cons_ne_nil _ _) short] at passedOn
            have equal := dropped.symm.trans (Option.some.inj passedOn)
            rw [MultisigCall.expected] at equal
            have arrays := (List.cons.inj (List.cons.inj equal).2).1
            exact (List.map_eq_nil_iff.mp (JsonValue.array.inj arrays).symm)
          · rw [flagged] at unset
            cases unset

/-- createmultisigaddressex passes on the number, the keys and `true` exactly where the call is accepted. -/
theorem passed_iff (documented : spirit.Documented) (described : call.Describes spirit args)
    (keys : ∀ k ∈ call.keys, IsKey k) (positive : ∀ n, call.required = some n → 1 ≤ n) :
    passed spirit args = some call.expected ↔ call.Accepted args.length :=
  ⟨accepted_of_passed documented described keys positive, passed_of_accepted documented described keys positive⟩

end

namespace Sample

/-- The digits at the start of a text, if their value is below the limit. -/
def takeDigits (limit : Nat) (text : List Char) : Option (Nat × List Char) :=
  let digits := text.takeWhile Char.isDigit
  if digits = [] ∨ limit ≤ numeral digits then none else some (numeral digits, text.dropWhile Char.isDigit)

/-- Parsers for strings without escapes and for numbers of digits alone. -/
def plainSpirit : Spirit where
  confix
    | '"' :: rest =>
        match rest.dropWhile (· ≠ '"') with
        | _ :: after => some ('"' :: (rest.takeWhile (· ≠ '"') ++ ['"']), after)
        | [] => none
    | _ => none
  strictReal _ := none
  int64 text := (takeDigits (2 ^ 63) text).map fun found => ((found.1 : Int), found.2)
  uint64 := takeDigits (2 ^ 64)

theorem takeDigits_some {limit : Nat} {text rest : List Char} {n : Nat}
    (found : takeDigits limit text = some (n, rest)) :
    (∃ c ∈ text.head?, startsNumber c = true) ∧ rest.length < text.length := by
  unfold takeDigits at found
  dsimp only at found
  split at found
  · cases found
  · rename_i some
    cases found
    cases text with
    | nil => exact absurd (Or.inl rfl) some
    | cons c tail =>
        cases digit : c.isDigit with
        | false => exact absurd (Or.inl (List.takeWhile_cons_of_neg (by simp [digit]))) some
        | true =>
            refine ⟨⟨c, rfl, by simp [startsNumber, digit]⟩, ?_⟩
            rw [List.dropWhile_cons_of_pos digit, List.length_cons]
            have shorter := (List.dropWhile_sublist Char.isDigit (l := tail)).length_le
            omega

theorem takeDigits_digits (limit : Nat) {text : List Char} (nonempty : text ≠ [])
    (each : ∀ c ∈ text, c.isDigit = true) :
    takeDigits limit text = if numeral text < limit then some (numeral text, []) else none := by
  unfold takeDigits
  rw [List.takeWhile_eq_self_iff.mpr each, List.dropWhile_eq_nil_iff.mpr each]
  dsimp only
  by_cases small : numeral text < limit
  · rw [if_neg (by simp [nonempty, small]), if_pos small]
  · rw [if_pos (Or.inr (Nat.not_lt.mp small)), if_neg small]

theorem plainSpirit_confix {text range rest : List Char} (found : plainSpirit.confix text = some (range, rest)) :
    text.head? = some '"' ∧ rest.length < text.length := by
  dsimp only [plainSpirit] at found
  split at found
  · rename_i tail
    split at found
    · rename_i shape
      cases found
      have shorter := (List.dropWhile_sublist (· ≠ '"') (l := tail)).length_le
      rw [shape, List.length_cons] at shorter
      exact ⟨rfl, by rw [List.length_cons]; omega⟩
    · cases found
  · cases found

theorem plainSpirit_documented : plainSpirit.Documented where
  confix_head := fun _ _ found => (plainSpirit_confix found).1
  strictReal_head := fun _ _ => nofun
  int64_head := by
    intro text result found
    obtain ⟨digits, taken, rfl⟩ := Option.map_eq_some_iff.mp found
    exact (takeDigits_some taken).1
  uint64_head := fun _ _ found => (takeDigits_some found).1
  strictReal_digits := fun _ _ => rfl
  int64_digits := by
    intro text nonempty each
    show (takeDigits (2 ^ 63) text).map _ = _
    rw [takeDigits_digits _ nonempty each]
    split
    · rfl
    · rfl
  uint64_digits := fun _ nonempty each => takeDigits_digits _ nonempty each
  confix_shorter := fun _ _ _ found => (plainSpirit_confix found).2
  strictReal_shorter := fun _ _ _ => nofun
  int64_shorter := by
    intro text i rest found
    obtain ⟨digits, taken, same⟩ := Option.map_eq_some_iff.mp found
    cases same
    exact (takeDigits_some taken).2
  uint64_shorter := fun _ _ _ found => (takeDigits_some found).2

def twoKeys : List (List Char) := [['1', 'a'], ['2', 'b']]

theorem twoKeys_keys : ∀ k ∈ twoKeys, IsKey k := by
  intro k member
  rcases List.mem_cons.mp member with rfl | member
  · exact ⟨List.all_eq_true.mp rfl, Or.inl ⟨'a', by decide, by decide⟩, by decide, by decide⟩
  · cases List.mem_singleton.mp member
    exact ⟨List.all_eq_true.mp rfl, Or.inl ⟨'b', by decide, by decide⟩, by decide, by decide⟩

/-- `2 ["1a","2b"]`, both as texts. -/
def textArgs : List JsonValue :=
  [.str ['2'], .str ['[', '"', '1', 'a', '"', ',', '"', '2', 'b', '"', ']']]

/-- `2 ["1a","2b"] true` -/
def arrayTrueArgs : List JsonValue := [.int 2, .array (twoKeys.map .str), .bool true]

end Sample

open Sample in
theorem passed_iff_texts : passed plainSpirit textArgs = some [.int 2, .array (twoKeys.map .str)] := by
  have number : DenotesNumber (.str ['2']) 2 := Or.inr ⟨['2'], rfl, by decide, List.all_eq_true.mp rfl, rfl⟩
  have keys : DenotesKeys plainSpirit (.str ['[', '"', '1', 'a', '"', ',', '"', '2', 'b', '"', ']']) twoKeys :=
    Or.inr ⟨_, rfl, rfl⟩
  have described : (⟨some 2, twoKeys, true, false⟩ : MultisigCall).Describes plainSpirit textArgs :=
    ⟨[_], [_], [], rfl, ⟨_, rfl, number⟩, ⟨_, rfl, keys⟩, rfl⟩
  have least : ∀ n, some 2 = some n → 1 ≤ n := by
    intro n same
    cases same
    decide
  apply (passed_iff plainSpirit_documented described twoKeys_keys least).mpr
  refine ⟨?_, by decide, nofun, nofun, nofun, nofun⟩
  intro n same
  cases same
  decide

open Sample in
/-- With a number, an array and `true` the keys are lost. -/
theorem passed_drops_keys :
    (⟨some 2, twoKeys, true, true⟩ : MultisigCall).Describes plainSpirit arrayTrueArgs ∧
      passed plainSpirit arrayTrueArgs = some [.int 2, .array [], .str trueWord] ∧
        passed plainSpirit arrayTrueArgs ≠ some (⟨some 2, twoKeys, true, true⟩ : MultisigCall).expected := by
  have number : DenotesNumber (.int 2) 2 := Or.inl ⟨by decide, rfl⟩
  have described : (⟨some 2, twoKeys, true, true⟩ : MultisigCall).Describes plainSpirit arrayTrueArgs :=
    ⟨[_], [_], [_], rfl, ⟨_, rfl, number⟩, ⟨_, rfl, Or.inl rfl⟩, Or.inl rfl⟩
  have dropped : passed plainSpirit arrayTrueArgs = some [.int 2, .array [], .str trueWord] := rfl
  refine ⟨described, dropped, ?_⟩
  rw [dropped]
  intro same
  cases same

end BitCrystal
