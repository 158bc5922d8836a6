import BitCrystal.CreateMultisigAddress

namespace BitCrystal

open JsonReader MultisigAddress

/-! # What the argument forms of createmultisigaddressex pass on -/

/-- A documented call: `n` if it is given, the keys one by one or as an array, and `true` if it is given. -/
structure MultisigCall where
  required : Option Nat
  keys : List (List Char)
  asArray : Bool
  set : Bool

/-- The letters and digits of an address or of a hex public key, which are no truth value and do not read as a
64-bit number. -/
structure IsKey (k : List Char) : Prop where
  letters : ∀ c ∈ k, c.isAlphanum = true
  notNumber : (∃ c ∈ k, c.isDigit = false) ∨ 2 ^ 64 ≤ numeral k
  notTrue : k ≠ trueWord
  notFalse : k ≠ falseWord

def DenotesNumber (param : JsonValue) (n : Nat) : Prop :=
  (n < 2 ^ 64 ∧ param = .int ((n : Int).bmod (2 ^ 64))) ∨
    ∃ text, param = .str text ∧ text ≠ [] ∧ (∀ c ∈ text, c.isDigit = true) ∧ numeral text = n

def DenotesKeys (spirit : Spirit) (param : JsonValue) (keys : List (List Char)) : Prop :=
  param = .array (keys.map .str) ∨ ∃ text, param = .str text ∧ readString spirit text = some (.array (keys.map .str))

namespace MultisigCall

def NumberArgs (call : MultisigCall) (args : List JsonValue) : Prop :=
  match call.required with
  | none => args = []
  | some n => ∃ param, args = [param] ∧ DenotesNumber param n

def KeyArgs (call : MultisigCall) (spirit : Spirit) (args : List JsonValue) : Prop :=
  if call.asArray then ∃ param, args = [param] ∧ DenotesKeys spirit param call.keys else args = call.keys.map .str

def SetArgs (call : MultisigCall) (args : List JsonValue) : Prop :=
  if call.set then args = [.bool true] ∨ args = [.str trueWord] else args = []

/-- The arguments are a form of the call. -/
def Describes (call : MultisigCall) (spirit : Spirit) (args : List JsonValue) : Prop :=
  ∃ number keys set, args = number ++ (keys ++ set) ∧ call.NumberArgs number ∧ call.KeyArgs spirit keys ∧
    call.SetArgs set

/-- What should be passed on: the number, or the number of keys, all keys in order, and `true` if it was given. -/
def expected (call : MultisigCall) : List JsonValue :=
  [.int (call.required.getD call.keys.length), .array (call.keys.map .str)] ++
    if call.set then [.str trueWord] else []

/-- What is passed on as it should be: the numbers fit in an `int`; an array of keys does not stand between a
number and `true`; of single keys none begins with a truth value, and there is one or `true`. -/
structure Accepted (call : MultisigCall) (size : Nat) : Prop where
  required : ∀ n, call.required = some n → n < 2 ^ 31
  size : size < 2 ^ 31
  count : call.required = none → call.keys.length < 2 ^ 31
  array : call.asArray = true → call.required ≠ none → call.set = true → call.keys = []
  single : call.asArray = false → ∀ k ∈ call.keys, trueWord.isPrefixOf k = false ∧ falseWord.isPrefixOf k = false
  present : call.asArray = false → call.keys = [] → call.set = true

end MultisigCall

/-! ## The values that the parameters stand for -/

section

variable {spirit : Spirit} {k : List Char} {param : JsonValue}

theorem isSpace_of_alphanum {c : Char} (letter : c.isAlphanum = true) : isSpace c = false := by
  rw [Bool.eq_false_iff]
  intro space
  simp only [isSpace, List.mem_cons, List.not_mem_nil, or_false, decide_eq_true_eq] at space
  rcases space with rfl | rfl | rfl | rfl | rfl | rfl <;> cases letter

theorem IsKey.nonempty (key : IsKey k) : k ≠ [] := by
  rintro rfl
  cases key.notNumber with
  | inl found =>
      obtain ⟨_, member, _⟩ := found
      cases member
  | inr large => exact absurd large (by decide)

theorem IsKey.skip (key : IsKey k) : JsonReader.skip k = k := by
  obtain ⟨c, tail, rfl⟩ := List.exists_cons_of_ne_nil key.nonempty
  exact skip_of_head (isSpace_of_alphanum (key.letters c List.mem_cons_self))

theorem IsKey.not_array (key : IsKey k) (values : List JsonValue) :
    readString spirit k ≠ some (.array values) := by
  intro parsed
  have head := readString_array parsed
  rw [key.skip] at head
  have letter := key.letters '[' (List.mem_of_mem_head? head)
  cases letter

/-- What a string stands for: itself, the array or the truth value that it reads as, or if it consists of digits
what else it reads as. -/
theorem readParam_str (spirit : Spirit) (e : List Char) : readParam spirit (.str e) = .str e ∧
      (∀ values, readString spirit e ≠ some (.array values)) ∧ (∀ b, readString spirit e ≠ some (.bool b)) ∨
    (∃ values, readString spirit e = some (.array values) ∧ readParam spirit (.str e) = .array values) ∨
    (∃ b, readString spirit e = some (.bool b) ∧ readParam spirit (.str e) = .bool b) ∨
    ((∀ c ∈ e, c.isDigit = true) ∧
      ∃ myval, readString spirit e = some myval ∧ readParam spirit (.str e) = myval) := by
  rw [readParam]
  by_cases digits : (e.any fun c => !c.isDigit) = true
  · cases parsed : readString spirit e with
    | none => exact Or.inl ⟨rfl, nofun, nofun⟩
    | some myval =>
        cases myval with
        | array values => exact Or.inr (Or.inl ⟨values, rfl, rfl⟩)
        | bool b => exact Or.inr (Or.inr (Or.inl ⟨b, rfl, rfl⟩))
        | _ => exact Or.inl ⟨if_pos digits, nofun, nofun⟩
  · have each : ∀ c ∈ e, c.isDigit = true := by simpa using digits
    cases parsed : readString spirit e with
    | none => exact Or.inl ⟨rfl, nofun, nofun⟩
    | some myval =>
        cases myval with
        | array values => exact Or.inr (Or.inl ⟨values, rfl, rfl⟩)
        | bool b => exact Or.inr (Or.inr (Or.inl ⟨b, rfl, rfl⟩))
        | _ => exact Or.inr (Or.inr (Or.inr ⟨each, _, rfl, if_neg digits⟩))

theorem IsKey.digits_unread (documented : spirit.Documented) (key : IsKey k) (each : ∀ c ∈ k, c.isDigit = true) :
    readString spirit k = none := by
  have large : 2 ^ 64 ≤ numeral k := by
    cases key.notNumber with
    | inl found =>
        obtain ⟨c, member, letter⟩ := found
        rw [each c member] at letter
        cases letter
    | inr large => exact large
  rw [readString_digits documented key.nonempty each, if_neg (Nat.not_lt.mpr large)]

/-- A key stands for itself or, where it begins with a truth value, for that. -/
theorem IsKey.readParam (documented : spirit.Documented) (key : IsKey k) :
    MultisigAddress.readParam spirit (.str k) = .str k ∨
      ∃ b, readString spirit k = some (.bool b) ∧ MultisigAddress.readParam spirit (.str k) = .bool b := by
  rcases readParam_str spirit k with ⟨stays, _⟩ | ⟨values, parsed, _⟩ | truth | ⟨each, myval, parsed, _⟩
  · exact Or.inl stays
  · exact absurd parsed (key.not_array values)
  · exact Or.inr truth
  · rw [key.digits_unread documented each] at parsed
    cases parsed

theorem IsKey.normalise (documented : spirit.Documented) (key : IsKey k) (notTrue : trueWord.isPrefixOf k = false)
    (notFalse : falseWord.isPrefixOf k = false) : MultisigAddress.normalise spirit (.str k) = .str k := by
  cases key.readParam documented with
  | inl stays => rw [MultisigAddress.normalise, stays]
  | inr truth =>
      obtain ⟨b, parsed, _⟩ := truth
      have starts := readString_bool parsed
      rw [key.skip, notTrue, notFalse] at starts
      cases starts with
      | inl impossible => cases impossible
      | inr impossible => cases impossible

theorem IsKey.normalise_not_array (documented : spirit.Documented) (key : IsKey k) (values : List JsonValue) :
    MultisigAddress.normalise spirit (.str k) ≠ .array values := by
  intro stands
  rw [MultisigAddress.normalise] at stands
  cases key.readParam documented with
  | inl stays =>
      rw [stays] at stands
      cases stands
  | inr truth =>
      obtain ⟨b, -, read⟩ := truth
      rw [read] at stands
      cases stands

theorem normalise_number (documented : spirit.Documented) {n : Nat} (denotes : DenotesNumber param n)
    (small : n < 2 ^ 31) : normalise spirit param = .int n := by
  have same : (n : Int).bmod (2 ^ 64) = n := Int.bmod_eq_of_le_mul_two (by omega) (by omega)
  rcases denotes with ⟨_, rfl⟩ | ⟨text, rfl, nonempty, each, rfl⟩
  · rw [same]
    rfl
  · have parsed := readString_digits documented nonempty each
    rw [if_pos (by omega), same] at parsed
    have digits : (text.any fun c => !c.isDigit) = false := by simpa using each
    rw [normalise, readParam, parsed]
    dsimp only
    rw [digits]
    rfl

theorem normalise_true (documented : spirit.Documented) (given : param = .bool true ∨ param = .str trueWord) :
    normalise spirit param = .str trueWord := by
  rcases given with rfl | rfl
  · rfl
  · rw [normalise, readParam, readString_true documented (by decide)]
    rfl

theorem normalise_keys {keys : List (List Char)} (denotes : DenotesKeys spirit param keys) :
    normalise spirit param = .array (keys.map .str) := by
  rcases denotes with rfl | ⟨text, rfl, parsed⟩
  · rfl
  · rw [normalise, readParam, parsed]

theorem normalise_str (documented : spirit.Documented) (stands : normalise spirit param = .str k)
    (notTrue : k ≠ trueWord) (notFalse : k ≠ falseWord) :
    trueWord.isPrefixOf k = false ∧ falseWord.isPrefixOf k = false := by
  have word : ∀ b : Bool, JsonValue.str (if b then trueWord else falseWord) ≠ .str k := by
    intro b same
    cases b with
    | true => exact notTrue (JsonValue.str.inj same).symm
    | false => exact notFalse (JsonValue.str.inj same).symm
  have unread : ∀ e, normalise spirit (.str e) = .str k → e = k ∧ ∀ b, readString spirit e ≠ some (.bool b) := by
    intro e stands
    rw [normalise] at stands
    rcases readParam_str spirit e with ⟨stays, _, noTruth⟩ | ⟨values, _, read⟩ | ⟨b, _, read⟩ |
      ⟨each, myval, parsed, read⟩
    · rw [stays] at stands
      exact ⟨JsonValue.str.inj stands, noTruth⟩
    · rw [read] at stands
      cases stands
    · rw [read] at stands
      exact absurd stands (word b)
    · exfalso
      cases e with
      | nil =>
          rw [readString_nil documented] at parsed
          cases parsed
      | cons c tail =>
          rw [readString_digits documented (List.cons_ne_nil c tail) each] at parsed
          split at parsed
          · cases parsed
            rw [read] at stands
            cases stands
          · cases parsed
  cases param with
  | str e =>
      obtain ⟨rfl, noTruth⟩ := unread e stands
      apply And.intro
      · rw [Bool.eq_false_iff]
        exact fun starts => noTruth true (readString_true documented starts)
      · rw [Bool.eq_false_iff]
        exact fun starts => noTruth false (readString_false documented starts)
  | bool b => exact absurd stands (word b)
  | obj _ => cases stands
  | array _ => cases stands
  | int _ => cases stands
  | real _ => cases stands
  | null => cases stands

theorem setArgs_cases {call : MultisigCall} (documented : spirit.Documented) {params : List JsonValue}
    (given : call.SetArgs params) :
    (call.set = true ∧ ∃ param, params = [param] ∧ normalise spirit param = .str trueWord) ∨
      (call.set = false ∧ params = []) := by
  cases set : call.set with
  | true =>
      rw [MultisigCall.SetArgs, if_pos set] at given
      cases given with
      | inl bool => exact Or.inl ⟨rfl, _, bool, normalise_true documented (Or.inl rfl)⟩
      | inr word => exact Or.inl ⟨rfl, _, word, normalise_true documented (Or.inr rfl)⟩
  | false =>
      rw [MultisigCall.SetArgs, if_neg (by simp [set])] at given
      exact Or.inr ⟨rfl, given⟩

/-! ## The loop -/

variable {state : Collected} {i size : Int} {params : List JsonValue} {keys : List (List Char)}

namespace MultisigAddress.Collected

/-- The strings that are collected so far, with more. -/
def withKeys (state : Collected) (keys : List (List Char)) : Collected := { state with arr := state.arr ++ keys }

@[simp] theorem withKeys_nRequired (state : Collected) (keys : List (List Char)) :
    (state.withKeys keys).nRequired = state.nRequired :=
  rfl

@[simp] theorem withKeys_arr (state : Collected) (keys : List (List Char)) :
    (state.withKeys keys).arr = state.arr ++ keys :=
  rfl

theorem turns_cons (within : i < size) : turns spirit size i (param :: params) state =
    turns spirit size (i + 1) params (state.turn (i = 0) (i = size - 1) (normalise spirit param)) :=
  if_pos within

theorem turns_last (last : i = size - 1) :
    turns spirit size i [param] state = state.turn (i = 0) true (normalise spirit param) := by
  rw [turns_cons (by omega), turns, decide_eq_true last]

theorem turns_middle (later : 0 < i) (before : i < size - 1) : turns spirit size i (param :: params) state =
    turns spirit size (i + 1) params (state.turn false false (normalise spirit param)) := by
  rw [turns_cons (by omega), decide_eq_false (show i ≠ 0 by omega), decide_eq_false (show i ≠ size - 1 by omega)]

theorem turns_keys (plain : ∀ k ∈ keys, normalise spirit (.str k) = .str k ∧ k ≠ trueWord) (later : 0 < i)
    (before : i + keys.length < size) : turns spirit size i (keys.map .str ++ params) state =
      turns spirit size (i + keys.length) params (state.withKeys keys) := by
  induction keys generalizing i state with
  | nil => simp [withKeys]
  | cons k rest ih =>
      rw [List.length_cons] at before
      obtain ⟨stays, different⟩ := plain k List.mem_cons_self
      have turned : state.turn false false (.str k) = state.pushStr k := if_neg different
      rw [List.map_cons, List.cons_append, turns_middle later (by omega), stays, turned,
        ih (fun other member => plain other (List.mem_cons_of_mem k member)) (by omega) (by omega)]
      have place : i + 1 + (rest.length : Int) = i + ((k :: rest).length : Int) := by
        rw [List.length_cons]
        omega
      rw [place]
      simp [withKeys, pushStr]

theorem turns_ending_keys (plain : ∀ k ∈ keys, normalise spirit (.str k) = .str k ∧ k ≠ trueWord) (some : keys ≠ [])
    (later : 0 < i) (all : i + keys.length = size) :
    turns spirit size i (keys.map .str) state = (state.withKeys keys).pushArr := by
  obtain ⟨before, last, shape⟩ := (List.eq_nil_or_concat keys).resolve_left some
  rw [List.concat_eq_append] at shape
  subst shape
  rw [List.length_append, List.length_singleton] at all
  obtain ⟨stays, different⟩ := plain last (by simp)
  rw [List.map_append, turns_keys (fun k member => plain k (List.mem_append_left _ member)) later (by omega)]
  have turned : ∀ first, (state.withKeys before).turn first true (.str last) =
      ((state.withKeys before).pushStr last).pushArr := by
    intro first
    cases first with
    | true => exact if_pos different
    | false => exact if_pos different
  rw [List.map_cons, List.map_nil, turns_last (by omega), stays, turned]
  simp [withKeys, pushStr]

theorem turns_ending_true (plain : ∀ k ∈ keys, normalise spirit (.str k) = .str k ∧ k ≠ trueWord) (later : 0 < i)
    (all : i + keys.length + 1 = size) (given : normalise spirit param = .str trueWord) :
    turns spirit size i (keys.map .str ++ [param]) state = (state.withKeys keys).pushArr.pushTrue := by
  rw [turns_keys plain later (by omega), turns_last (by omega), given]
  have turned : ∀ first, (state.withKeys keys).turn first true (.str trueWord) =
      (state.withKeys keys).pushArr.pushTrue := by
    intro first
    cases first with
    | true => exact if_neg (by simp)
    | false => exact if_neg (by simp)
  exact turned _

/-- The state after the last argument, where single keys have been collected. -/
def ended (state : Collected) (set : Bool) : Collected := if set then state.pushArr.pushTrue else state.pushArr

theorem turns_ending (call : MultisigCall) (documented : spirit.Documented)
    (plain : ∀ k ∈ call.keys, normalise spirit (.str k) = .str k ∧ k ≠ trueWord)
    (present : call.keys = [] → call.set = true) (given : call.SetArgs params) (later : 0 < i)
    (all : i + (call.keys.map JsonValue.str ++ params).length = size) :
    turns spirit size i (call.keys.map .str ++ params) state = (state.withKeys call.keys).ended call.set := by
  rw [List.length_append, List.length_map] at all
  rcases setArgs_cases documented given with ⟨set, param, rfl, stands⟩ | ⟨set, rfl⟩
  · rw [List.length_singleton] at all
    rw [set]
    exact turns_ending_true plain later (by omega) stands
  · have some : call.keys ≠ [] := by
      intro none
      rw [present none] at set
      cases set
    rw [List.length_nil] at all
    rw [List.append_nil, set]
    exact turns_ending_keys plain some later (by omega)

theorem ended_newParams (fresh : state.newParams = []) (unset : state.arrayIsSet = false) (set : Bool) :
    (state.ended set).newParams = [.int (if state.nRequired = 0 then getInt state.arr.length else state.nRequired),
      .array (state.arr.map .str)] ++ if set then [.str trueWord] else [] := by
  have pushed : state.pushArr.newParams = [.int (if state.nRequired = 0 then getInt state.arr.length
      else state.nRequired), .array (state.arr.map .str)] := by
    unfold pushArr
    rw [unset, fresh]
    rfl
  cases set with
  | true => exact congrArg (· ++ [JsonValue.str trueWord]) pushed
  | false => exact pushed.trans (List.append_nil _).symm

end MultisigAddress.Collected

open Collected

theorem passed_eq (some : params ≠ []) (short : params.length < 2 ^ 31) :
    passed spirit params = Option.some (turns spirit params.length 0 params start).newParams := by
  have size : getInt params.length = params.length := getInt_of_range (by omega) (by omega)
  have positive : 0 < params.length := List.length_pos_of_ne_nil some
  unfold passed
  dsimp only
  rw [size]
  exact if_neg (by omega)

theorem turns_single {call : MultisigCall} {set : List JsonValue} (documented : spirit.Documented)
    (plain : ∀ k ∈ call.keys, normalise spirit (.str k) = .str k ∧ k ≠ trueWord)
    (present : call.keys = [] → call.set = true) (given : call.SetArgs set)
    (all : ((call.keys.map JsonValue.str ++ set).length : Int) = size) :
    turns spirit size 0 (call.keys.map .str ++ set) start = (start.withKeys call.keys).ended call.set := by
  obtain ⟨required, keys, asArray, flag⟩ := call
  dsimp only at plain present all ⊢
  cases keys with
  | nil =>
      rcases setArgs_cases documented given with ⟨flagged, param, rfl, stands⟩ | ⟨unset, _⟩
      · dsimp only at flagged
        rw [List.map_nil, List.nil_append] at all ⊢
        rw [turns_last (by rw [← all]; rfl), stands, flagged]
        rfl
      · rw [present rfl] at unset
        cases unset
  | cons k rest =>
      obtain ⟨stays, different⟩ := plain k List.mem_cons_self
      by_cases alone : rest.map JsonValue.str ++ set = []
      · obtain ⟨noMore, noSet⟩ := List.append_eq_nil_iff.mp alone
        have last : rest = [] := List.map_eq_nil_iff.mp noMore
        rcases setArgs_cases documented given with ⟨_, param, given, _⟩ | ⟨unset, _⟩
        · rw [noSet] at given
          cases given
        · dsimp only at unset
          have turned : start.turn true true (.str k) = (start.pushStr k).pushArr := if_pos different
          rw [last, noSet, List.map_singleton, List.append_nil] at all ⊢
          rw [turns_last (by rw [← all]; rfl), stays, unset, decide_eq_true rfl, turned]
          rfl
      · have positive := List.length_pos_of_ne_nil alone
        rw [List.map_cons, List.cons_append] at all ⊢
        rw [List.length_cons] at all
        have others : rest = [] → flag = true := by
          intro last
          rcases setArgs_cases documented given with ⟨flagged, _⟩ | ⟨_, noSet⟩
          · exact flagged
          · rw [last, noSet] at alone
            exact absurd rfl alone
        rw [turns_cons (by omega), decide_eq_true rfl, decide_eq_false (show (0 : Int) ≠ size - 1 by omega), stays]
        have more : ∀ other ∈ rest, normalise spirit (.str other) = .str other ∧ other ≠ trueWord :=
          fun other member => plain other (List.mem_cons_of_mem k member)
        exact turns_ending ⟨required, rest, asArray, flag⟩ documented more others given (Int.zero_lt_one) (by
          show 0 + 1 + ((rest.map JsonValue.str ++ set).length : Int) = size
          omega)

theorem single_ne_nil {call : MultisigCall} {set : List JsonValue} (documented : spirit.Documented)
    (present : call.keys = [] → call.set = true) (given : call.SetArgs set) :
    call.keys.map JsonValue.str ++ set ≠ [] := by
  intro none
  obtain ⟨noKeys, noSet⟩ := List.append_eq_nil_iff.mp none
  rcases setArgs_cases documented given with ⟨_, param, given, _⟩ | ⟨unset, _⟩
  · rw [noSet] at given
    cases given
  · rw [present (List.map_eq_nil_iff.mp noKeys)] at unset
    cases unset

theorem turns_numbered {call : MultisigCall} {set : List JsonValue} {n : Int} (documented : spirit.Documented)
    (plain : ∀ k ∈ call.keys, normalise spirit (.str k) = .str k ∧ k ≠ trueWord)
    (present : call.keys = [] → call.set = true) (given : call.SetArgs set) (number : normalise spirit param = .int n)
    (all : ((param :: (call.keys.map JsonValue.str ++ set)).length : Int) = size) :
    turns spirit size 0 (param :: (call.keys.map .str ++ set)) start =
      ({ start with nRequired := getInt n }.withKeys call.keys).ended call.set := by
  have nonempty := single_ne_nil documented present given
  rw [List.length_cons] at all
  have positive := List.length_pos_of_ne_nil nonempty
  rw [turns_cons (by omega), decide_eq_true rfl, decide_eq_false (show (0 : Int) ≠ size - 1 by omega), number]
  exact turns_ending call documented plain present given (by decide) (by omega)

theorem pushArray_newParams (state : Collected) (d : List JsonValue) :
    (state.pushArray d).newParams = state.newParams ++
      [.int (if state.nRequired = 0 then getInt d.length else state.nRequired), .array d] :=
  rfl

theorem pushArr_set (set : state.arrayIsSet = true) : state.pushArr.newParams = state.newParams := by
  unfold pushArr
  rw [set]
  rfl

theorem turns_array {call : MultisigCall} {set : List JsonValue} {d : List JsonValue} (documented : spirit.Documented)
    (array : normalise spirit param = .array d) (given : call.SetArgs set) :
    (turns spirit (param :: set).length 0 (param :: set) start).newParams =
      [.int (getInt d.length), .array d] ++ if call.set then [.str trueWord] else [] := by
  have pushed : (start.pushArray d).newParams = [.int (getInt d.length), .array d] := by
    have zero : start.nRequired = 0 := rfl
    rw [pushArray_newParams, if_pos zero]
    rfl
  rcases setArgs_cases documented given with ⟨flagged, word, rfl, stands⟩ | ⟨unset, rfl⟩
  · have size : (([param, word].length : Nat) : Int) = 2 := rfl
    have first : start.turn true false (.array d) = start.pushArray d := rfl
    have last : (start.pushArray d).turn false true (.str trueWord) = (start.pushArray d).pushArr.pushTrue :=
      if_neg (by simp)
    rw [size, turns_cons (by decide), decide_eq_true rfl, decide_eq_false (by decide), array, first,
      turns_last (by decide), stands, decide_eq_false (by decide), last, flagged, pushTrue, pushArr_set rfl, pushed]
    rfl
  · have size : (([param].length : Nat) : Int) = 1 := rfl
    have last : start.turn true true (.array d) = start.pushArray d := rfl
    rw [size, turns_last (by decide), decide_eq_true rfl, array, last, unset, pushed]
    rfl

theorem turns_numbered_array {number : JsonValue} {n : Int} {d : List JsonValue}
    (stands : normalise spirit number = .int n) (array : normalise spirit param = .array d) :
    (turns spirit 2 0 [number, param] start).newParams =
      [.int (if getInt n = 0 then getInt d.length else getInt n), .array d] := by
  have first : start.turn true false (.int n) = { start with nRequired := getInt n } := rfl
  have last : ({ start with nRequired := getInt n } : Collected).turn false true (.array d) =
      ({ start with nRequired := getInt n } : Collected).pushArray d := rfl
  rw [turns_cons (by decide), decide_eq_true rfl, decide_eq_false (by decide), stands, first, turns_last (by decide),
    array, decide_eq_false (by decide), last, pushArray_newParams]
  rfl

theorem turns_dropped {number word : JsonValue} {n : Int} {d : List JsonValue}
    (stands : normalise spirit number = .int n) (array : normalise spirit param = .array d)
    (given : normalise spirit word = .str trueWord) :
    (turns spirit 3 0 [number, param, word] start).newParams =
      [.int (if getInt n = 0 then getInt ([] : List (List Char)).length else getInt n), .array [],
        .str trueWord] := by
  have first : start.turn true false (.int n) = { start with nRequired := getInt n } := rfl
  have between : ({ start with nRequired := getInt n } : Collected).turn false false (.array d) =
      { start with nRequired := getInt n } := rfl
  have last : ({ start with nRequired := getInt n } : Collected).turn false true (.str trueWord) =
      ({ start with nRequired := getInt n } : Collected).ended true := if_neg (by simp)
  rw [turns_cons (by decide), decide_eq_true rfl, decide_eq_false (by decide), stands, first,
    turns_middle (by decide) (by decide), array, between, turns_last (by decide), given, decide_eq_false (by decide),
    last, ended_newParams rfl rfl]
  rfl

/-! ## The forms -/

variable {call : MultisigCall} {args : List JsonValue}

theorem expected_of_count {n : Int} {d : List JsonValue} (number : n = call.required.getD call.keys.length)
    (keys : d = call.keys.map .str) :
    [.int n, .array d] ++ (if call.set then [.str trueWord] else []) = call.expected := by
  rw [number, keys, MultisigCall.expected]

theorem passed_single {number set : List JsonValue} (documented : spirit.Documented)
    (plain : ∀ k ∈ call.keys, normalise spirit (.str k) = .str k ∧ k ≠ trueWord)
    (present : call.keys = [] → call.set = true) (numbered : call.NumberArgs number) (given : call.SetArgs set)
    (positive : ∀ n, call.required = some n → 1 ≤ n) (small : ∀ n, call.required = some n → n < 2 ^ 31)
    (short : (number ++ (call.keys.map JsonValue.str ++ set)).length < 2 ^ 31) :
    passed spirit (number ++ (call.keys.map .str ++ set)) = some call.expected := by
  have few : call.keys.length < 2 ^ 31 := by
    rw [List.length_append, List.length_append, List.length_map] at short
    omega
  cases required : call.required with
  | none =>
      rw [MultisigCall.NumberArgs, required] at numbered
      have noNumber : number = [] := numbered
      have nonempty := single_ne_nil documented present given
      rw [noNumber, List.nil_append] at short ⊢
      rw [passed_eq nonempty short, turns_single documented plain present given rfl, ended_newParams rfl rfl]
      apply congrArg some
      apply expected_of_count
      · have zero : start.nRequired = 0 := rfl
        have count : (start.arr ++ call.keys).length = call.keys.length := rfl
        rw [required, withKeys_nRequired, withKeys_arr, if_pos zero, count, getInt_of_range (by omega) (by omega)]
        rfl
      · rfl
  | some n =>
      rw [MultisigCall.NumberArgs, required] at numbered
      obtain ⟨param, rfl, denotes⟩ := numbered
      have range := small n required
      have least := positive n required
      have stands := normalise_number documented denotes range
      have value : getInt (n : Int) = n := getInt_of_range (by omega) (by omega)
      rw [List.singleton_append] at short ⊢
      rw [passed_eq (List.cons_ne_nil _ _) short, turns_numbered documented plain present given stands rfl,
        ended_newParams rfl rfl]
      apply congrArg some
      apply expected_of_count
      · rw [required, withKeys_nRequired]
        dsimp only
        rw [value, if_neg (by omega)]
        rfl
      · rfl

theorem passed_of_accepted (documented : spirit.Documented) (described : call.Describes spirit args)
    (keys : ∀ k ∈ call.keys, IsKey k) (positive : ∀ n, call.required = some n → 1 ≤ n)
    (accepted : call.Accepted args.length) : passed spirit args = some call.expected := by
  obtain ⟨number, keyArgs, set, rfl, numbered, keyed, given⟩ := described
  have short := accepted.size
  cases form : call.asArray with
  | false =>
      rw [MultisigCall.KeyArgs, if_neg (by simp [form])] at keyed
      subst keyed
      have plain : ∀ k ∈ call.keys, normalise spirit (.str k) = .str k ∧ k ≠ trueWord := by
        intro k member
        obtain ⟨notTrue, notFalse⟩ := accepted.single form k member
        exact ⟨(keys k member).normalise documented notTrue notFalse, (keys k member).notTrue⟩
      exact passed_single documented plain (accepted.present form) numbered given positive accepted.required short
  | true =>
      rw [MultisigCall.KeyArgs, if_pos form] at keyed
      obtain ⟨param, rfl, denotes⟩ := keyed
      have array := normalise_keys denotes
      cases required : call.required with
      | none =>
          rw [MultisigCall.NumberArgs, required] at numbered
          have noNumber : number = [] := numbered
          have few := accepted.count required
          rw [noNumber, List.nil_append, List.singleton_append] at short ⊢
          rw [passed_eq (List.cons_ne_nil _ _) short, turns_array documented array given]
          apply congrArg some
          apply expected_of_count
          · rw [required, List.length_map]
            exact getInt_of_range (by omega) (by omega)
          · rfl
      | some n =>
          rw [MultisigCall.NumberArgs, required] at numbered
          obtain ⟨first, rfl, number⟩ := numbered
          have range := accepted.required n required
          have least := positive n required
          have stands := normalise_number documented number range
          have value : getInt (n : Int) = n := getInt_of_range (by omega) (by omega)
          have nonzero : ¬getInt (n : Int) = 0 := by omega
          rw [List.singleton_append, List.singleton_append] at short ⊢
          rw [passed_eq (List.cons_ne_nil _ _) short]
          apply congrArg some
          rcases setArgs_cases documented given with ⟨flagged, word, rfl, truth⟩ | ⟨unset, rfl⟩
          · have none := accepted.array form (by simp [required]) flagged
            refine (turns_dropped stands array truth).trans ?_
            rw [if_neg nonzero, value, MultisigCall.expected, required, none, flagged]
            rfl
          · refine (turns_numbered_array stands array).trans ?_
            rw [if_neg nonzero, value, MultisigCall.expected, required, unset]
            rfl

end

end BitCrystal
