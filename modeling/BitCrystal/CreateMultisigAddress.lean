import BitCrystal.JsonReader

namespace BitCrystal

open JsonReader

/-! # The arguments of createmultisigaddressex -/

namespace MultisigAddress

variable (spirit : Spirit)

/-- A string that reads as an array, as a truth value or, if it consists of digits, as a number, stands for it. -/
def readParam : JsonValue → JsonValue
  | .str e =>
      match readString spirit e with
      | none => .str e
      | some (.array values) => .array values
      | some (.bool b) => .bool b
      | some myval => if e.any fun c => !c.isDigit then .str e else myval
  | param => param

/-- `myval` of a parameter, in which a truth value is its word. -/
def normalise (param : JsonValue) : JsonValue :=
  match readParam spirit param with
  | .bool set => .str (if set then trueWord else falseWord)
  | myval => myval

structure Collected where
  nRequired : Int
  newParams : List JsonValue
  arr : List (List Char)
  arrayIsSet : Bool

namespace Collected

def start : Collected := ⟨0, [], [], false⟩

def pushStr (state : Collected) (str : List Char) : Collected := { state with arr := state.arr ++ [str] }

/-- The parameters of an array, with its size if no number is required. -/
def pushArray (state : Collected) (d : List JsonValue) : Collected :=
  let nRequired := if state.nRequired = 0 then getInt d.length else state.nRequired
  { state with
    nRequired
    newParams := state.newParams ++ [.int nRequired, .array d]
    arrayIsSet := true }

/-- The parameters of the strings so far, unless an array has given them. -/
def pushArr (state : Collected) : Collected :=
  let nRequired := if state.nRequired = 0 then getInt state.arr.length else state.nRequired
  if !state.arrayIsSet then
    { state with nRequired, newParams := state.newParams ++ [.int nRequired, .array (state.arr.map .str)] }
  else { state with nRequired }

def pushTrue (state : Collected) : Collected := { state with newParams := state.newParams ++ [.str trueWord] }

/-- One turn of the loop, where `isFirst` is `i==0` and `isEnd` is `i==end`. -/
def turn (isFirst isEnd : Bool) (state : Collected) (myval : JsonValue) : Collected :=
  if isFirst && !isEnd then
    match myval with
    | .str str => state.pushStr str
    | .int n => { state with nRequired := getInt n }
    | .array d => state.pushArray d
    | _ => state
  else if isEnd then
    match myval with
    | .str str => if str ≠ trueWord then (state.pushStr str).pushArr else state.pushArr.pushTrue
    | .array d => if state.arrayIsSet then state else state.pushArray d
    | _ => state
  else
    match myval with
    | .str str => if str = trueWord then state else state.pushStr str
    | _ => state

/-- The loop from `i` on. -/
def turns (size : Int) : Int → List JsonValue → Collected → Collected
  | _, [], state => state
  | i, param :: params, state =>
      if i < size then turns size (i + 1) params (state.turn (i = 0) (i = size - 1) (normalise spirit param))
      else state

end Collected

/-- What is passed to createmultisigex, unless there are no arguments. -/
def passed (params : List JsonValue) : Option (List JsonValue) :=
  let size := getInt params.length
  if size < 1 then none else some (Collected.turns spirit size 0 params .start).newParams

end MultisigAddress

/-- What createmultisigex asks about keys, and write_string, encode_security and base64_encode together. -/
structure MultisigHelpers where
  isValidPubKey : List Char → Bool
  isMineBitcoinAddress : List Char → Bool
  isMinePubKey : List Char → Bool
  describe : List JsonValue → List Char

def invalidArguments : List Char := "invalid arguments!".toList

namespace MultisigHelpers

variable (helpers : MultisigHelpers)

def isMine (x : List Char) : Bool :=
  if !helpers.isValidPubKey x then helpers.isMineBitcoinAddress x else helpers.isMinePubKey x

/-- `mine_count` of the loop over the keys; `get_str` throws where a value is no string. -/
def countMine (mine_count : Nat) : List JsonValue → Except String Nat
  | [] => .ok mine_count
  | .str x :: arr => countMine (if helpers.isMine x then mine_count + 1 else mine_count) arr
  | _ :: _ => .error "value is not a string"

def createmultisigex (params : List JsonValue) : Except String (List Char) :=
  if params.length < 2 ∨ 3 < params.length then .error "createmultisigex: help"
  else
    match params with
    | .int n :: .array arr :: _ => do
        let set := params.length = 3
        let nRequired := getInt n
        let mine_count ← helpers.countMine 0 arr
        if 1 < nRequired ∧ ¬set ∧ nRequired - 1 < mine_count then return invalidArguments
        else return helpers.describe params
    | _ => .ok invalidArguments

def createmultisigaddressex (spirit : Spirit) (params : List JsonValue) : Except String (List Char) :=
  match MultisigAddress.passed spirit params with
  | none => .error "createmultisigaddressex: help"
  | some newParams =>
      match helpers.createmultisigex newParams with
      | .ok result => .ok result
      | .error _ => .ok invalidArguments

end MultisigHelpers

end BitCrystal
