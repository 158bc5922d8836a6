import BitCrystal.TradeRecords

namespace BitCrystal

open Data

/-! # The record of signrawtransaction_multisig

A record goes from signer to signer as an encoded text of a JSON object; each of them
reads the object and writes a new one. -/

/-- The fields of a record. -/
structure MultisigRecord where
  hex : List Char
  signdata : JsonValue
  fromaddress : List Char
  addresses : List JsonValue
  complete : Bool
  usedunspenttxids : List JsonValue
  averageconfirmations : Int
  minconfirmations : Int
  outstandingPrivKeys : Int
  nRequired : Int
  signedAddresses : List JsonValue

/-- The object that createrawtransaction_multisig and signrawtransaction_multisig write. -/
def MultisigRecord.toObject (r : MultisigRecord) : JsonObject :=
  [("hex".toList, .str r.hex), ("txhash".toList, .str []), ("signdata".toList, r.signdata),
    ("fromaddress".toList, .str r.fromaddress), ("addresses".toList, .array r.addresses),
    ("complete".toList, .bool r.complete), ("issended".toList, .bool false),
    ("usedunspenttxids".toList, .array r.usedunspenttxids),
    ("usedunspenttxidsamount".toList, .int r.usedunspenttxids.length),
    ("averageconfirmations".toList, .int r.averageconfirmations), ("minconfirmations".toList, .int r.minconfirmations),
    ("outstandingPrivKeys".toList, .int r.outstandingPrivKeys), ("nRequired".toList, .int r.nRequired),
    ("signedAddresses".toList, .array r.signedAddresses)]

/-- The record of createrawtransaction_multisig for a script with these addresses. -/
def createdRecord (hex : List Char) (signdata : JsonValue) (fromaddress : List Char) (addresses : List (List Char))
    (usedunspenttxids : List JsonValue) (averageconfirmations minconfirmations nRequired : Int) : MultisigRecord :=
  ⟨hex, signdata, fromaddress, addresses.map .str, false, usedunspenttxids, averageconfirmations, minconfirmations,
    nRequired, nRequired, []⟩

/-- A wallet and the chain it sees; `none` where a function throws. -/
structure MultisigSigner where
  dumpprivkey : List Char → Option (List Char)
  getAverageConfirmationsOfTxids : List JsonValue → Int
  signrawtransaction : List Char → List JsonValue → List (List Char) → Option JsonValue

def JsonValue.getArray : JsonValue → Except Failure (List JsonValue)
  | .array values => .ok values
  | value => .error (wrongType value "array")

def JsonValue.getObj : JsonValue → Except Failure JsonObject
  | .obj pairs => .ok pairs
  | value => .error (wrongType value "obj")

def JsonValue.getBool : JsonValue → Except Failure Bool
  | .bool b => .ok b
  | value => .error (wrongType value "bool")

def JsonValue.getInt : JsonValue → Except Failure Int
  | .int i => .ok (BitCrystal.getInt i)
  | value => .error (wrongType value "int")

/-- `find_value`, and `return false` without the field. -/
def recordField (obj : JsonObject) (name : String) : Except Failure JsonValue :=
  match findValue obj name with
  | .null => .error (.refused "")
  | value => .ok value

/-- `amount` as an `unsigned int` -/
def amountOf : Option JsonValue → Nat
  | some (.int i) => (BitCrystal.getInt i % 2 ^ 32).toNat
  | _ => 0

/-- What the loop over the addresses changes. -/
structure Signing where
  privKeys : List (List Char)
  signedAddresses : List JsonValue
  outstandingPrivKeys : Int
  isSetted : Nat

def Signing.push (s : Signing) (address privKey : List Char) : Signing where
  privKeys := s.privKeys ++ [privKey]
  signedAddresses := s.signedAddresses ++ [.str address]
  outstandingPrivKeys := s.outstandingPrivKeys - 1
  isSetted := s.isSetted + 1

namespace MultisigSigner

variable (signer : MultisigSigner)

/-- A turn of the loop; hasPrivKey and GetPrivKey both ask dumpprivkey. -/
def signTurn (mysize i : Nat) (value : JsonValue) (s : Signing) : Except Failure Signing := do
  let address ← value.getStr
  match signer.dumpprivkey address with
  | none => return s
  | some privKey =>
      if i < mysize then do
        let signed ← (s.signedAddresses.getD i .null).getStr
        if signed ≠ address then return s else return s.push address privKey
      else return s.push address privKey

/-- Both loops; the first one stops when `amount` addresses are set. Where it goes on with `continue` there are fewer. -/
def signLoop (mysize : Nat) (amount : Option Nat) : List JsonValue → Nat → Signing → Except Failure Signing
  | [], _, s => .ok s
  | value :: rest, i, s => do
      let s ← signer.signTurn mysize i value s
      if amount.any (· ≤ s.isSetted) then return s else signLoop mysize amount rest (i + 1) s

/-- Up to the call of signrawtransaction: the record without the new `hex` and `complete`, and the keys. -/
def prepare (amount : Option JsonValue) (obj : JsonObject) : Except Failure (MultisigRecord × List (List Char)) := do
  let nRequired ← (← recordField obj "nRequired").getInt
  let outstandingPrivKeys ← (← recordField obj "outstandingPrivKeys").getInt
  let signedAddresses ← (← recordField obj "signedAddresses").getArray
  let complete ← (← recordField obj "complete").getBool
  require (!complete) (.refused "")
  let usedtxids ← (← recordField obj "usedunspenttxids").getArray
  let minconfirmations ← (← recordField obj "minconfirmations").getInt
  let averageconfirmations := signer.getAverageConfirmationsOfTxids usedtxids
  let hex ← (← recordField obj "hex").getStr
  let signdata ← (← recordField obj "signdata").getArray
  let fromaddress ← (← recordField obj "fromaddress").getStr
  let addresses ← (← recordField obj "addresses").getArray
  let amount := if amountOf amount < addresses.length ∧ 0 < amountOf amount then some (amountOf amount) else none
  let s ← signer.signLoop signedAddresses.length amount addresses 0 ⟨[], signedAddresses, outstandingPrivKeys, 0⟩
  return (⟨hex, .array signdata, fromaddress, addresses, complete, usedtxids, averageconfirmations, minconfirmations,
    s.outstandingPrivKeys, nRequired, s.signedAddresses⟩, s.privKeys)

/-- `hex` after signrawtransaction. -/
def signedHex (hex : List Char) (obj2 : JsonObject) : Except Failure (List Char) :=
  match findValue obj2 "hex" with
  | .null => .ok hex
  | value => value.getStr

/-- `is_completed` has no value before. -/
def isCompleted (obj2 : JsonObject) : Except Failure Bool :=
  match findValue obj2 "complete" with
  | .null => .error (.undefined "is_completed")
  | value => value.getBool

/-- The call of signrawtransaction and what it changes. -/
def finish (r : MultisigRecord) (privKeys : List (List Char)) : Except Failure MultisigRecord := do
  let signdata ← r.signdata.getArray
  let ret ← expect (signer.signrawtransaction r.hex signdata privKeys) (.exception "signrawtransaction")
  match ret with
  | .obj obj2 => do
      let hex ← signedHex r.hex obj2
      let is_completed ← isCompleted obj2
      return { r with hex := hex, complete := is_completed }
  | _ => .error (.refused "")

/-- The object of the new record; an exception is caught and `false` returned. -/
def signrawtransactionMultisig (amount : Option JsonValue) (obj : JsonObject) : Except Failure JsonObject :=
  match (do
    let (r, privKeys) ← signer.prepare amount obj
    signer.finish r privKeys) with
  | .ok r => .ok r.toObject
  | .error (.exception _) => .error (.refused "")
  | .error reason => .error reason

end MultisigSigner

/-! ## What a call picks -/

/-- The addresses from position `i` on whose keys the signer holds, without those at whose position another address is
listed. -/
def eligibleFrom (signer : MultisigSigner) (signed : List (List Char)) : List (List Char) → Nat → List (List Char)
  | [], _ => []
  | address :: rest, i =>
      if (signer.dumpprivkey address).isSome ∧ ∀ listed ∈ signed[i]?, listed = address then
        address :: eligibleFrom signer signed rest (i + 1)
      else eligibleFrom signer signed rest (i + 1)

/-- The first so many elements, or all. -/
def limited {α : Type} (limit : Option Nat) (l : List α) : List α :=
  match limit with
  | none => l
  | some count => l.take count

def picked (signer : MultisigSigner) (amount : Nat) (signed addresses : List (List Char)) : List (List Char) :=
  limited (if amount < addresses.length ∧ 0 < amount then some amount else none) (eligibleFrom signer signed addresses 0)

def keysOf (signer : MultisigSigner) (addresses : List (List Char)) : List (List Char) :=
  addresses.filterMap signer.dumpprivkey

theorem mem_eligibleFrom {signer : MultisigSigner} {signed addresses : List (List Char)} {i : Nat} {address : List Char}
    (member : address ∈ eligibleFrom signer signed addresses i) :
    address ∈ addresses ∧ (signer.dumpprivkey address).isSome := by
  induction addresses generalizing i with
  | nil => cases member
  | cons first rest ih =>
      rw [eligibleFrom] at member
      split at member
      case isTrue eligible =>
        rcases List.mem_cons.mp member with rfl | later
        · exact ⟨List.mem_cons_self, eligible.1⟩
        · exact ⟨List.mem_cons_of_mem first (ih later).1, (ih later).2⟩
      case isFalse => exact ⟨List.mem_cons_of_mem first (ih member).1, (ih member).2⟩

theorem limited_subset {α : Type} (limit : Option Nat) (l : List α) : limited limit l ⊆ l := by
  cases limit with
  | none => exact List.Subset.refl l
  | some count => exact List.take_subset count l

theorem mem_picked {signer : MultisigSigner} {amount : Nat} {signed addresses : List (List Char)} {address : List Char}
    (member : address ∈ picked signer amount signed addresses) :
    address ∈ addresses ∧ (signer.dumpprivkey address).isSome :=
  mem_eligibleFrom (limited_subset _ _ member)

/-- What the loop has done when it has picked some addresses. -/
def Signing.add (s : Signing) (signer : MultisigSigner) (addresses : List (List Char)) : Signing where
  privKeys := s.privKeys ++ keysOf signer addresses
  signedAddresses := s.signedAddresses ++ addresses.map .str
  outstandingPrivKeys := s.outstandingPrivKeys - addresses.length
  isSetted := s.isSetted + addresses.length

theorem Signing.add_nil (s : Signing) (signer : MultisigSigner) : s.add signer [] = s := by
  simp [Signing.add, keysOf]

theorem Signing.add_cons (s : Signing) (signer : MultisigSigner) {address privKey : List Char}
    (held : signer.dumpprivkey address = some privKey) (rest : List (List Char)) :
    (s.push address privKey).add signer rest = s.add signer (address :: rest) := by
  simp only [Signing.add, Signing.push, keysOf, List.filterMap_cons_some held, List.map_cons, List.append_assoc,
    List.singleton_append, List.length_cons, Signing.mk.injEq, true_and]
  omega

namespace MultisigSigner

variable {signer : MultisigSigner}

/-- A turn adds an address exactly if it is eligible. -/
theorem signTurn_eq {signed added : List (List Char)} {s : Signing} (i : Nat) (address : List Char)
    (list : s.signedAddresses = (signed ++ added).map .str) :
    signer.signTurn signed.length i (.str address) s =
      .ok (s.add signer (eligibleFrom signer signed [address] i)) := by
  rw [signTurn, JsonValue.getStr, ok_bind]
  cases held : signer.dumpprivkey address with
  | none =>
      rw [eligibleFrom, if_neg (by simp [held]), eligibleFrom, Signing.add_nil]
      rfl
  | some privKey =>
      have one : s.push address privKey = s.add signer [address] := by
        rw [← Signing.add_cons s signer held, Signing.add_nil]
      dsimp only
      by_cases early : i < signed.length
      · have at_ : s.signedAddresses.getD i .null = .str signed[i] := by
          rw [list, List.getD_eq_getElem?_getD, List.getElem?_map, List.getElem?_append_left early,
            List.getElem?_eq_getElem early]
          rfl
        rw [if_pos early, at_, JsonValue.getStr, ok_bind, eligibleFrom, eligibleFrom, List.getElem?_eq_getElem early]
        by_cases same : signed[i] = address
        · rw [if_neg (not_not_intro same), if_pos (by simp [held, same]), one]
          rfl
        · rw [if_pos same, if_neg (by simp [same]), Signing.add_nil]
          rfl
      · rw [if_neg early, eligibleFrom, eligibleFrom,
          if_pos (by simp [held, List.getElem?_eq_none (Nat.le_of_not_lt early)]), one]
        rfl

theorem signLoop_eq {signed added rest : List (List Char)} {s : Signing} {i : Nat} {amount : Option Nat}
    (list : s.signedAddresses = (signed ++ added).map .str) (open_ : ∀ count ∈ amount, s.isSetted < count) :
    signer.signLoop signed.length amount (rest.map .str) i s =
      .ok (s.add signer (limited (amount.map (· - s.isSetted)) (eligibleFrom signer signed rest i))) := by
  have noneLeft : limited (amount.map (· - s.isSetted)) ([] : List (List Char)) = [] := by
    cases amount with
    | none => rfl
    | some count => exact List.take_nil
  induction rest generalizing s i added with
  | nil => rw [List.map_nil, signLoop, eligibleFrom, noneLeft, Signing.add_nil]
  | cons address rest ih =>
      rw [List.map_cons, signLoop, signTurn_eq i address list, ok_bind, eligibleFrom, eligibleFrom, eligibleFrom]
      by_cases eligible : (signer.dumpprivkey address).isSome ∧ ∀ listed ∈ signed[i]?, listed = address
      case neg =>
        have notYet : amount.any (· ≤ s.isSetted) = false := by
          cases amount with
          | none => rfl
          | some count => simpa using open_ count rfl
        rw [if_neg eligible, if_neg eligible, Signing.add_nil, notYet, if_neg Bool.false_ne_true, ih list open_ noneLeft]
      case pos =>
        obtain ⟨privKey, held⟩ := Option.isSome_iff_exists.mp eligible.1
        have later : (s.add signer [address]).signedAddresses = (signed ++ (added ++ [address])).map .str := by
          rw [Signing.add, list, ← List.map_append, List.append_assoc]
        have one : s.push address privKey = s.add signer [address] := by
          rw [← Signing.add_cons s signer held, Signing.add_nil]
        have set_ : (s.add signer [address]).isSetted = s.isSetted + 1 := rfl
        rw [if_pos eligible, if_pos eligible]
        cases amount with
        | none =>
            rw [Option.any_none, if_neg Bool.false_ne_true, ih later (fun _ none => by cases none) rfl, ← one,
              Option.map_none, limited, Signing.add_cons s signer held]
            rfl
        | some count =>
            have room := open_ count rfl
            have front : count - s.isSetted = (count - (s.isSetted + 1)) + 1 := by omega
            rw [Option.map_some, limited, front, List.take_succ_cons, Option.any_some, set_]
            by_cases last : count ≤ s.isSetted + 1
            · have nothing : count - (s.isSetted + 1) = 0 := by omega
              rw [if_pos (by simpa using last), nothing, List.take_zero]
              rfl
            · have stillOpen : ∀ other ∈ some count, (s.add signer [address]).isSetted < other := by
                intro other same
                cases same
                rw [set_]
                omega
              rw [if_neg (by simpa using last), ih later stillOpen (by exact List.take_nil), ← one,
                Option.map_some, limited, Signing.add_cons s signer held]
              rfl

theorem prepare_toObject (amount : Option JsonValue) (r : MultisigRecord) :
    signer.prepare amount r.toObject = (do
      require (!r.complete) (.refused "")
      let signdata ← (← recordField r.toObject "signdata").getArray
      let limit := if amountOf amount < r.addresses.length ∧ 0 < amountOf amount then some (amountOf amount) else none
      let s ← signer.signLoop r.signedAddresses.length limit r.addresses 0
        ⟨[], r.signedAddresses, getInt r.outstandingPrivKeys, 0⟩
      return (⟨r.hex, .array signdata, r.fromaddress, r.addresses, r.complete, r.usedunspenttxids,
        signer.getAverageConfirmationsOfTxids r.usedunspenttxids, getInt r.minconfirmations, s.outstandingPrivKeys,
        getInt r.nRequired, s.signedAddresses⟩, s.privKeys)) := by
  rfl

end MultisigSigner

/-! ## Calls on a record -/

/-- The strings of an array. -/
def textsOf (values : List JsonValue) : List (List Char) :=
  values.filterMap fun
    | .str text => some text
    | _ => none

theorem textsOf_map (texts : List (List Char)) : textsOf (texts.map .str) = texts := by
  rw [textsOf, List.filterMap_map]
  exact List.filterMap_some

def MultisigRecord.added (r : MultisigRecord) (signer : MultisigSigner) (amount : Option JsonValue) : List (List Char) :=
  picked signer (amountOf amount) (textsOf r.signedAddresses) (textsOf r.addresses)

theorem MultisigRecord.toObject_injective {r after : MultisigRecord} (same : r.toObject = after.toObject) : r = after := by
  have field (name : String) : findValue r.toObject name = findValue after.toObject name := by rw [same]
  have hex := JsonValue.str.inj (field "hex")
  have signdata : r.signdata = after.signdata := field "signdata"
  have fromaddress := JsonValue.str.inj (field "fromaddress")
  have addresses := JsonValue.array.inj (field "addresses")
  have complete := JsonValue.bool.inj (field "complete")
  have usedunspenttxids := JsonValue.array.inj (field "usedunspenttxids")
  have averageconfirmations := JsonValue.int.inj (field "averageconfirmations")
  have minconfirmations := JsonValue.int.inj (field "minconfirmations")
  have outstandingPrivKeys := JsonValue.int.inj (field "outstandingPrivKeys")
  have nRequired := JsonValue.int.inj (field "nRequired")
  have signedAddresses := JsonValue.array.inj (field "signedAddresses")
  cases r
  cases after
  simp only [MultisigRecord.mk.injEq]
  exact ⟨hex, signdata, fromaddress, addresses, complete, usedunspenttxids, averageconfirmations, minconfirmations,
    outstandingPrivKeys, nRequired, signedAddresses⟩

namespace MultisigSigner

variable {signer : MultisigSigner} {amount : Option JsonValue} {r after : MultisigRecord} {privKeys : List (List Char)}

structure Addressed (r : MultisigRecord) : Prop where
  addresses : r.addresses = (textsOf r.addresses).map .str
  signed : r.signedAddresses = (textsOf r.signedAddresses).map .str

/-- What the part up to signrawtransaction does to the lists. -/
structure Prepared (signer : MultisigSigner) (amount : Option JsonValue) (r prepared : MultisigRecord)
    (privKeys : List (List Char)) : Prop where
  privKeys : privKeys = keysOf signer (r.added signer amount)
  addresses : prepared.addresses = r.addresses
  nRequired : prepared.nRequired = getInt r.nRequired
  outstandingPrivKeys : prepared.outstandingPrivKeys = getInt r.outstandingPrivKeys - (r.added signer amount).length
  signedAddresses : prepared.signedAddresses = (textsOf r.signedAddresses ++ r.added signer amount).map .str

theorem prepare_prepared (addressed : Addressed r) {prepared : MultisigRecord}
    (run : signer.prepare amount r.toObject = .ok (prepared, privKeys)) : Prepared signer amount r prepared privKeys := by
  simp only [prepare_toObject, bind_eq_ok, require_eq_ok, pure_eq_ok, exists_const] at run
  obtain ⟨_, value, _, signdata, _, s, loop, same⟩ := run
  have length : r.signedAddresses.length = (textsOf r.signedAddresses).length := by
    conv_lhs => rw [addressed.signed, List.length_map]
  have count : r.addresses.length = (textsOf r.addresses).length := by
    conv_lhs => rw [addressed.addresses, List.length_map]
  have list : r.signedAddresses = (textsOf r.signedAddresses ++ []).map .str := by
    rw [List.append_nil]
    exact addressed.signed
  have open_ : ∀ limit ∈ (if amountOf amount < (textsOf r.addresses).length ∧ 0 < amountOf amount then
      some (amountOf amount) else none), 0 < limit := by
    intro limit member
    split at member
    case isTrue inside =>
      cases member
      exact inside.2
    case isFalse => cases member
  have turns := @signLoop_eq signer _ _ (textsOf r.addresses)
    ⟨[], r.signedAddresses, getInt r.outstandingPrivKeys, 0⟩ 0 _ list open_
  rw [← addressed.addresses] at turns
  rw [length, count, turns] at loop
  simp only [Nat.sub_zero, Option.map_id'] at loop
  cases loop
  cases same
  constructor
  case privKeys => rfl
  case addresses => rfl
  case nRequired => rfl
  case outstandingPrivKeys => rfl
  case signedAddresses =>
    rw [List.map_append, ← addressed.signed]
    rfl

theorem finish_kept {prepared : MultisigRecord} (run : signer.finish prepared privKeys = .ok after) :
    after = { prepared with hex := after.hex, complete := after.complete } := by
  rw [finish, bind_eq_ok] at run
  obtain ⟨signdata, _, run⟩ := run
  obtain ⟨ret, _, run⟩ := bind_eq_ok.mp run
  split at run
  case h_1 obj2 =>
    obtain ⟨hex, _, run⟩ := bind_eq_ok.mp run
    obtain ⟨is_completed, _, same⟩ := bind_eq_ok.mp run
    cases same
    rfl
  case h_2 => cases run

theorem signrawtransactionMultisig_eq_ok :
    signer.signrawtransactionMultisig amount r.toObject = .ok after.toObject ↔
      ∃ prepared privKeys, signer.prepare amount r.toObject = .ok (prepared, privKeys) ∧
        signer.finish prepared privKeys = .ok after := by
  rw [signrawtransactionMultisig]
  constructor
  · intro run
    split at run
    case h_1 r' done =>
      obtain ⟨⟨prepared, privKeys⟩, first, second⟩ := bind_eq_ok.mp done
      have same := MultisigRecord.toObject_injective (Except.ok.inj run)
      exact ⟨prepared, privKeys, first, by rw [← same]; exact second⟩
    case h_2 => cases run
    case h_3 => cases run
  · intro ⟨prepared, privKeys, first, second⟩
    rw [first, ok_bind]
    dsimp only
    rw [second]

end MultisigSigner

/-! ## Runs -/

/-- The keys that a call has given to signrawtransaction. -/
structure SigningCall where
  signer : MultisigSigner
  privKeys : List (List Char)

/-- Calls one after the other, each with the record that the last one has returned. -/
inductive SigningRun (start : MultisigRecord) (meets : MultisigSigner → Option JsonValue → MultisigRecord → Prop) :
    MultisigRecord → List SigningCall → Prop where
  | created : SigningRun start meets start []
  | signed {r after prepared : MultisigRecord} {calls : List SigningCall} {signer : MultisigSigner}
      {amount : Option JsonValue} {privKeys : List (List Char)} (run : SigningRun start meets r calls)
      (met : meets signer amount r) (first : signer.prepare amount r.toObject = .ok (prepared, privKeys))
      (returned : signer.signrawtransactionMultisig amount r.toObject = .ok after.toObject) :
      SigningRun start meets after (⟨signer, privKeys⟩ :: calls)

/-- What the bookkeeping promises for a record and the calls so far. -/
structure Booked (start r : MultisigRecord) (calls : List SigningCall) : Prop where
  nodup : (textsOf r.signedAddresses).Nodup
  belongs : ∀ address ∈ textsOf r.signedAddresses, .str address ∈ start.addresses
  signedFor : ∀ address ∈ textsOf r.signedAddresses, ∃ call ∈ calls, ∃ privKey,
    call.signer.dumpprivkey address = some privKey ∧ privKey ∈ call.privKeys
  outstanding : r.outstandingPrivKeys = start.nRequired - (textsOf r.signedAddresses).dedup.length
  nonneg : 0 ≤ r.outstandingPrivKeys

/-- A call adds each address once, none that is listed, and no more than are outstanding. -/
structure AddsNew (signer : MultisigSigner) (amount : Option JsonValue) (r : MultisigRecord) : Prop where
  nodup : (r.added signer amount).Nodup
  new : ∀ address ∈ r.added signer amount, address ∉ textsOf r.signedAddresses
  few : ((r.added signer amount).length : Int) ≤ r.outstandingPrivKeys

/-- What every call keeps, whatever it adds. -/
structure Unchanged (start r : MultisigRecord) : Prop where
  addressed : MultisigSigner.Addressed r
  addresses : r.addresses = start.addresses
  required : r.nRequired = start.nRequired

variable {start r after prepared : MultisigRecord} {calls : List SigningCall} {signer : MultisigSigner}
  {amount : Option JsonValue} {privKeys : List (List Char)}

theorem call_lists (addressed : MultisigSigner.Addressed r)
    (first : signer.prepare amount r.toObject = .ok (prepared, privKeys))
    (returned : signer.signrawtransactionMultisig amount r.toObject = .ok after.toObject) :
    MultisigSigner.Prepared signer amount r after privKeys := by
  obtain ⟨prepared', privKeys', again, second⟩ := MultisigSigner.signrawtransactionMultisig_eq_ok.mp returned
  cases first.symm.trans again
  have lists := MultisigSigner.prepare_prepared addressed first
  rw [MultisigSigner.finish_kept second]
  exact ⟨lists.privKeys, lists.addresses, lists.nRequired, lists.outstandingPrivKeys, lists.signedAddresses⟩

theorem Unchanged.call (unchanged : Unchanged start r) (low : 0 ≤ start.nRequired) (high : start.nRequired < 2 ^ 31)
    (lists : MultisigSigner.Prepared signer amount r after privKeys) : Unchanged start after := by
  constructor
  case addressed =>
    constructor
    case addresses =>
      rw [lists.addresses]
      exact unchanged.addressed.addresses
    case signed => rw [lists.signedAddresses, textsOf_map]
  case addresses => rw [lists.addresses, unchanged.addresses]
  case required => rw [lists.nRequired, unchanged.required, getInt_of_range low high]

/-- The promise is kept by a call exactly if it adds new addresses, and not too many. -/
theorem Booked.call_iff (booked : Booked start r calls) (unchanged : Unchanged start r)
    (high : start.nRequired < 2 ^ 31) (lists : MultisigSigner.Prepared signer amount r after privKeys) :
    Booked start after (⟨signer, privKeys⟩ :: calls) ↔ AddsNew signer amount r := by
  have signed : textsOf after.signedAddresses = textsOf r.signedAddresses ++ r.added signer amount := by
    rw [lists.signedAddresses, textsOf_map]
  have before := booked.outstanding
  have read : getInt r.outstandingPrivKeys = r.outstandingPrivKeys := getInt_of_range booked.nonneg (by omega)
  have outstanding := lists.outstandingPrivKeys
  rw [read] at outstanding
  constructor
  · intro after_
    have both := after_.nodup
    rw [signed, List.nodup_append'] at both
    have nonneg := after_.nonneg
    exact ⟨both.2.1, fun address new old => both.2.2 old new, by omega⟩
  · intro adds
    have nodup : (textsOf r.signedAddresses ++ r.added signer amount).Nodup :=
      List.nodup_append'.mpr ⟨booked.nodup, adds.nodup, fun address old new => adds.new address new old⟩
    have few := adds.few
    constructor
    case nodup => rwa [signed]
    case belongs =>
      intro address member
      rw [signed] at member
      rcases List.mem_append.mp member with old | new
      · exact booked.belongs address old
      · rw [← unchanged.addresses, unchanged.addressed.addresses]
        exact List.mem_map_of_mem (mem_picked new).1
    case signedFor =>
      intro address member
      rw [signed] at member
      rcases List.mem_append.mp member with old | new
      · obtain ⟨call, made, key⟩ := booked.signedFor address old
        exact ⟨call, List.mem_cons_of_mem _ made, key⟩
      · obtain ⟨privKey, held⟩ := Option.isSome_iff_exists.mp (mem_picked new).2
        refine ⟨⟨signer, privKeys⟩, List.mem_cons_self, privKey, held, ?_⟩
        rw [lists.privKeys]
        exact List.mem_filterMap.mpr ⟨address, new, held⟩
    case outstanding =>
      rw [booked.nodup.dedup] at before
      rw [signed, nodup.dedup, outstanding, List.length_append]
      omega
    case nonneg => omega

theorem SigningRun.unchanged {meets : MultisigSigner → Option JsonValue → MultisigRecord → Prop}
    (run : SigningRun start meets r calls) (fresh : MultisigSigner.Addressed start) (low : 0 ≤ start.nRequired)
    (high : start.nRequired < 2 ^ 31) : Unchanged start r := by
  induction run with
  | created => exact ⟨fresh, rfl, rfl⟩
  | signed run met first returned ih => exact ih.call low high (call_lists ih.addressed first returned)

theorem addressed_created (hex : List Char) (signdata : JsonValue) (fromaddress : List Char) (addresses : List (List Char))
    (usedunspenttxids : List JsonValue) (averageconfirmations minconfirmations nRequired : Int) :
    MultisigSigner.Addressed (createdRecord hex signdata fromaddress addresses usedunspenttxids averageconfirmations
      minconfirmations nRequired) :=
  ⟨by rw [createdRecord, textsOf_map], rfl⟩

/-- The bookkeeping of a record holds after any calls by any wallets, each of which adds new addresses and not too
many. -/
theorem signing_booked (hex : List Char) (signdata : JsonValue) (fromaddress : List Char) (addresses : List (List Char))
    (usedunspenttxids : List JsonValue) (averageconfirmations minconfirmations nRequired : Int) (low : 0 ≤ nRequired)
    (high : nRequired < 2 ^ 31)
    (run : SigningRun (createdRecord hex signdata fromaddress addresses usedunspenttxids averageconfirmations
      minconfirmations nRequired) AddsNew r calls) :
    Booked (createdRecord hex signdata fromaddress addresses usedunspenttxids averageconfirmations minconfirmations
      nRequired) r calls := by
  have fresh := addressed_created hex signdata fromaddress addresses usedunspenttxids averageconfirmations
    minconfirmations nRequired
  induction run with
  | created =>
      constructor
      case nodup => exact List.nodup_nil
      case belongs => exact fun _ => False.elim ∘ List.not_mem_nil
      case signedFor => exact fun _ => False.elim ∘ List.not_mem_nil
      case outstanding => exact (Int.sub_zero nRequired).symm
      case nonneg => exact low
  | signed run met first returned ih =>
      have unchanged := run.unchanged fresh low high
      exact (ih.call_iff unchanged high (call_lists unchanged.addressed first returned)).mpr met

/-! ## Two signers -/

/-- A wallet with one key; its signature completes the transaction or not. -/
def oneKey (address privKey : String) (complete : Bool) : MultisigSigner where
  dumpprivkey asked := if asked = address.toList then some privKey.toList else none
  getAverageConfirmationsOfTxids _ := 1
  signrawtransaction hex _ _ :=
    some (.obj [("hex".toList, .str (hex ++ privKey.toList)), ("complete".toList, .bool complete)])

def twoOfTwo : MultisigRecord :=
  createdRecord "00".toList (.array []) "3A".toList ["1A".toList, "1B".toList] [] 1 0 2

def signedBy (hex : String) (complete : Bool) (outstandingPrivKeys : Int) (signed : List (List Char)) : MultisigRecord :=
  { twoOfTwo with hex := hex.toList, complete, outstandingPrivKeys, signedAddresses := signed.map .str }

theorem first_signs {meets : MultisigSigner → Option JsonValue → MultisigRecord → Prop}
    (met : meets (oneKey "1A" "AA" false) none twoOfTwo) :
    SigningRun twoOfTwo meets (signedBy "00AA" false 1 ["1A".toList]) [⟨oneKey "1A" "AA" false, ["AA".toList]⟩] :=
  .signed .created met rfl rfl

theorem signing_booked_both :
    Booked twoOfTwo (signedBy "00AABB" true 0 ["1A".toList, "1B".toList])
      [⟨oneKey "1B" "BB" true, ["BB".toList]⟩, ⟨oneKey "1A" "AA" false, ["AA".toList]⟩] :=
  signing_booked "00".toList (.array []) "3A".toList ["1A".toList, "1B".toList] [] 1 0 2 (by decide) (by decide)
    (@SigningRun.signed _ _ _ _ _ _ (oneKey "1B" "BB" true) none _
      (first_signs ⟨by decide, by decide, by decide⟩) ⟨by decide, by decide, by decide⟩ rfl rfl)

/-- The same signer is listed and counted again. -/
theorem signs_twice : ∃ r calls, SigningRun twoOfTwo (fun _ _ _ => True) r calls ∧ ¬ (textsOf r.signedAddresses).Nodup ∧
    r.outstandingPrivKeys = 0 ∧ (textsOf r.signedAddresses).dedup.length = 1 :=
  ⟨signedBy "00AAAA" false 0 ["1A".toList, "1A".toList], _,
    @SigningRun.signed _ _ _ _ _ _ (oneKey "1A" "AA" false) none _ (first_signs trivial) trivial rfl rfl,
    by decide, rfl, by decide⟩

end BitCrystal
