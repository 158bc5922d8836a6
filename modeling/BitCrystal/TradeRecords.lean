import BitCrystal.DataSecurity
import BitCrystal.JsonReader

namespace BitCrystal

open Data

/-! # The trade records of rpcdump.cpp -/

/-! ## JSON texts -/

abbrev JsonObject := List (List Char × JsonValue)

/-- What the locale and the C++ library give for a character and a real number. -/
structure JsonWriter where
  iswprint : UInt8 → Bool
  /-- `std::showpoint << std::fixed << std::setprecision(8)` -/
  fixed8 : BitVec 64 → Bytes

structure JsonText extends JsonWriter where
  /-- `static_cast<double>` of an integer -/
  toDouble : Int → BitVec 64
  readString : Bytes → Option JsonValue

def toHexChar (c : Nat) : UInt8 := UInt8.ofNat (if c < 10 then 0x30 + c else 0x37 + c)

def nonPrintableToString (c : Nat) : Bytes :=
  [0x5c, 0x75, toHexChar (c / 16 ^ 3 % 16), toHexChar (c / 16 ^ 2 % 16), toHexChar (c / 16 % 16), toHexChar (c % 16)]

def addEscChar (c : UInt8) : Option Bytes :=
  match c with
  | 0x22 => some [0x5c, 0x22]
  | 0x5c => some [0x5c, 0x5c]
  | 0x08 => some [0x5c, 0x62]
  | 0x0c => some [0x5c, 0x66]
  | 0x0a => some [0x5c, 0x6e]
  | 0x0d => some [0x5c, 0x72]
  | 0x09 => some [0x5c, 0x74]
  | _ => none

namespace JsonWriter

variable (lib : JsonWriter)

def addEscChars (s : Bytes) : Bytes :=
  s.flatMap fun c => (addEscChar c).getD (if lib.iswprint c then [c] else nonPrintableToString c.toNat)

def quoted (s : List Char) : Bytes := [0x22] ++ lib.addEscChars (bytesOf s) ++ [0x22]

def indent (indentationLevel : Nat) : Bytes := (List.replicate indentationLevel (ascii "    ")).flatten

mutual

/-- `output`, pretty; no record has an integer of 64 bits without a sign. -/
def output (indentationLevel : Nat) : JsonValue → Bytes
  | .obj pairs => ascii "\x7b\n" ++ outputObj (indentationLevel + 1) pairs ++ indent indentationLevel ++ ascii "\x7d"
  | .array values => ascii "[\n" ++ outputArray (indentationLevel + 1) values ++ indent indentationLevel ++ ascii "]"
  | .str text => lib.quoted text
  | .bool b => ascii (if b then "true" else "false")
  | .int i => ascii (toString i)
  | .real bits => lib.fixed8 bits
  | .null => ascii "null"

/-- The members of an object. -/
def outputObj (indentationLevel : Nat) : List (List Char × JsonValue) → Bytes
  | [] => []
  | (name, value) :: rest =>
      indent indentationLevel ++ lib.quoted name ++ ascii " : " ++ output indentationLevel value ++
        ascii (if rest.isEmpty then "\n" else ",\n") ++ outputObj indentationLevel rest

def outputArray (indentationLevel : Nat) : List JsonValue → Bytes
  | [] => []
  | value :: rest =>
      indent indentationLevel ++ output indentationLevel value ++
        ascii (if rest.isEmpty then "\n" else ",\n") ++ outputArray indentationLevel rest

end

/-- `write_string(value, true)` -/
def writeString (value : JsonValue) : Bytes := lib.output 0 value

end JsonWriter

/-- `find_value`; the first field with the name. -/
def findValue : JsonObject → String → JsonValue
  | [], _ => .null
  | (name_, value) :: rest, name => if name_ = name.toList then value else findValue rest name

/-- `Value_type_name` -/
def JsonValue.typeName : JsonValue → String
  | .obj _ => "obj"
  | .array _ => "array"
  | .str _ => "str"
  | .bool _ => "bool"
  | .int _ => "int"
  | .real _ => "real"
  | .null => "null"

/-- The exception of `check_type` -/
def wrongType (value : JsonValue) (vtype : String) : Failure :=
  .exception ("value is type " ++ value.typeName ++ ", expected " ++ vtype)

/-- An element of `params`. -/
structure JsonArgument where
  value : JsonValue
  isUint64 : Bool

def JsonArgument.ofText (text : List Char) : JsonArgument := ⟨.str text, false⟩

def JsonValue.getStr : JsonValue → Except Failure (List Char)
  | .str text => .ok text
  | value => .error (wrongType value "str")

def JsonArgument.getStr (a : JsonArgument) : Except Failure (List Char) := a.value.getStr

def JsonArgument.getReal (a : JsonArgument) (lib : JsonText) : Except Failure (BitVec 64) :=
  match a.value with
  | .real bits => .ok bits
  | .int i => .ok (lib.toDouble (if a.isUint64 then i % 2 ^ 64 else i))
  | value => .error (wrongType value "real")

/-! ## The encoders -/

/-- The end of each encoder. -/
def encodeTrade (g : SeededRand) (lib : JsonText) (trade : JsonObject) : Except Failure JsonValue := do
  let encode ← g.encodeDataSecurityEmail (lib.writeString (.obj trade))
  return .str (charsOf encode)

/-- The last three fields of each record. -/
def tradeFlags : JsonObject :=
  [("BITCOIN".toList, .bool false), ("BITCRYSTAL".toList, .bool true), ("ERROR".toList, .bool false)]

def tradeFields (tradelogin tradepw : List Char) (amount price : BitVec 64) : JsonObject :=
  [("BUY_CURRENCY".toList, .str "BTC".toList), ("PRICE_CURRENCY".toList, .str "BTCRY".toList),
    ("AMOUNT".toList, .real amount), ("PRICE".toList, .real price), ("LOGIN".toList, .str tradelogin),
    ("PASSWORD".toList, .str tradepw)] ++ tradeFlags

def encodetrade (g : SeededRand) (lib : JsonText) (params : List JsonArgument) : Except Failure JsonValue :=
  match params with
  | [login, pw, amount, price] => do
      let tradelogin ← login.getStr
      let tradepw ← pw.getStr
      let amount ← amount.getReal lib
      let price ← price.getReal lib
      encodeTrade g lib (tradeFields tradelogin tradepw amount price)
  | _ => .error (.exception "\n")

def tradeWithFields (tradelogin tradepw tradelogin2 tradepw2 : List Char) : JsonObject :=
  [("LOGIN".toList, .str tradelogin), ("PASSWORD".toList, .str tradepw), ("BUY_LOGIN".toList, .str tradelogin2),
    ("BUY_PASSWORD".toList, .str tradepw2)] ++ tradeFlags

/-- `params[3]` is read twice, and `params[2]` never. -/
def encodetradewith (g : SeededRand) (lib : JsonText) (params : List JsonArgument) : Except Failure JsonValue :=
  match params with
  | [login, pw, _, fourth] => do
      let tradelogin ← login.getStr
      let tradepw ← pw.getStr
      let tradelogin2 ← fourth.getStr
      let tradepw2 ← fourth.getStr
      encodeTrade g lib (tradeWithFields tradelogin tradepw tradelogin2 tradepw2)
  | _ => .error (.exception "\n")

/-- What encoderandompubkeys asks the wallet for; `none` where the wallet function returns false. -/
structure RandomKeys (σ : Type) where
  mygetnewaddress : σ → Option (List Char × σ)
  getPubKey : σ → List Char → Option (List Char)

def RandomKeys.newAddresses {σ : Type} (keys : RandomKeys σ) : Nat → σ → Option (List (List Char) × σ)
  | 0, s => some ([], s)
  | count + 1, s =>
      match keys.mygetnewaddress s with
      | none => none
      | some (address, s) => (keys.newAddresses count s).map fun rest => (address :: rest.1, rest.2)

def RandomKeys.randomPubKeys {σ : Type} (keys : RandomKeys σ) (s : σ) : Option (List (List Char) × List (List Char)) := do
  let (addresses, s) ← keys.newAddresses 10 s
  let pubkeys ← addresses.mapM (keys.getPubKey s)
  return (addresses, pubkeys)

def pubKeysFields (addresses pubkeys : List (List Char)) (tradelogin tradepw : List Char) : JsonObject :=
  [("ADDRESSES".toList, .array (addresses.map .str)), ("PUBKEYS".toList, .array (pubkeys.map .str)),
    ("LOGIN".toList, .str tradelogin), ("PASSWORD".toList, .str tradepw)] ++ tradeFlags

def encoderandompubkeys {σ : Type} (g : SeededRand) (lib : JsonText) (keys : RandomKeys σ) (s : σ)
    (params : List JsonArgument) : Except Failure JsonValue :=
  match params with
  | [login, pw] => do
      let tradelogin ← login.getStr
      let tradepw ← pw.getStr
      match keys.randomPubKeys s with
      | none => return .str "false".toList
      | some (addresses, pubkeys) => encodeTrade g lib (pubKeysFields addresses pubkeys tradelogin tradepw)
  | _ => .error (.exception "\n")

/-! ## The decoders -/

def isStr : JsonValue → Bool
  | .str _ => true
  | _ => false

def isText (text : String) : JsonValue → Bool
  | .str test => test = text.toList
  | _ => false

def isReal : JsonValue → Bool
  | .real _ => true
  | _ => false

def isArray : JsonValue → Bool
  | .array _ => true
  | _ => false

def isBool (b : Bool) : JsonValue → Bool
  | .bool value => value == b
  | _ => false

abbrev FieldChecks := List (String × (JsonValue → Bool))

/-- The checks that end each decoder. -/
def flagChecks : FieldChecks := [("BITCOIN", isBool false), ("BITCRYSTAL", isBool true), ("ERROR", isBool false)]

/-- The object with ERROR alone. -/
def errorObject : JsonValue := .obj [("ERROR".toList, .bool true)]

def passes (checks : FieldChecks) (trade : JsonObject) : Bool :=
  checks.all fun (name, holds) => holds (findValue trade name)

def decodeTrade (g : SeededRand) (lib : JsonText) (checks : FieldChecks) (params : List JsonArgument) :
    Except Failure JsonValue :=
  match params with
  | [x] => do
      let x ← x.getStr
      let decode ← g.decodeDataSecurityEmail (bytesOf x)
      match lib.readString decode with
      | some (.obj trade) => if passes checks trade then return .obj trade else return errorObject
      | _ => return errorObject
  | _ => .error (.exception "\n")

def tradeChecks : FieldChecks :=
  [("BUY_CURRENCY", isText "BTC"), ("PRICE_CURRENCY", isText "BTCRY"), ("AMOUNT", isReal), ("PRICE", isReal),
    ("LOGIN", isStr), ("PASSWORD", isStr)] ++ flagChecks

def decodetrade (g : SeededRand) (lib : JsonText) : List JsonArgument → Except Failure JsonValue :=
  decodeTrade g lib tradeChecks

def tradeWithChecks : FieldChecks :=
  [("LOGIN", isStr), ("PASSWORD", isStr), ("BUY_LOGIN", isStr), ("BUY_PASSWORD", isStr)] ++ flagChecks

def decodetradewith (g : SeededRand) (lib : JsonText) : List JsonArgument → Except Failure JsonValue :=
  decodeTrade g lib tradeWithChecks

def pubKeysChecks : FieldChecks :=
  [("ADDRESSES", isArray), ("PUBKEYS", isArray), ("LOGIN", isStr), ("PASSWORD", isStr)] ++ flagChecks

def decoderandompubkeys (g : SeededRand) (lib : JsonText) : List JsonArgument → Except Failure JsonValue :=
  decodeTrade g lib pubKeysChecks

/-! ## A record and its decoder -/

/-- The codec and the JSON library give back the text and the value of a record. -/
structure Carries (g : SeededRand) (lib : JsonText) (trade : JsonObject) : Prop where
  codec : g.encodeDataSecurityEmail (lib.writeString (.obj trade)) >>= g.decodeDataSecurityEmail =
    .ok (lib.writeString (.obj trade))
  json : lib.readString (lib.writeString (.obj trade)) = some (.obj trade)

def exchange (encoder : Except Failure JsonValue) (decoder : List JsonArgument → Except Failure JsonValue) :
    Except Failure JsonValue := do
  let record ← encoder
  decoder [⟨record, false⟩]

variable {g : SeededRand} {lib : JsonText}

theorem decodeTrade_record {trade : JsonObject} (carries : Carries g lib trade) {record : JsonValue}
    (encoded : encodeTrade g lib trade = .ok record) (checks : FieldChecks) :
    decodeTrade g lib checks [⟨record, false⟩] = .ok (if passes checks trade then .obj trade else errorObject) := by
  rw [encodeTrade, bind_eq_ok] at encoded
  obtain ⟨encode, run, same⟩ := encoded
  obtain rfl := pure_eq_ok.mp same
  have codec := carries.codec
  rw [run, ok_bind] at codec
  simp only [decodeTrade, JsonArgument.getStr, JsonValue.getStr, ok_bind, bytesOf_charsOf, codec, carries.json]
  split <;> rfl

theorem encodeTrade_returns {trade : JsonObject} (carries : Carries g lib trade) :
    ∃ record, encodeTrade g lib trade = .ok record := by
  obtain ⟨encode, run, _⟩ := bind_eq_ok.mp carries.codec
  exact ⟨.str (charsOf encode), by rw [encodeTrade, run]; rfl⟩

theorem exchange_encodeTrade {trade : JsonObject} (carries : Carries g lib trade) (checks : FieldChecks) :
    exchange (encodeTrade g lib trade) (decodeTrade g lib checks) =
      .ok (if passes checks trade then .obj trade else errorObject) := by
  obtain ⟨record, encoded⟩ := encodeTrade_returns carries
  rw [exchange, encoded]
  exact decodeTrade_record carries encoded checks

theorem encodeTrade_injective {trade trade' : JsonObject} (carries : Carries g lib trade)
    (carries' : Carries g lib trade') (same : encodeTrade g lib trade = encodeTrade g lib trade') : trade = trade' := by
  obtain ⟨record, encoded⟩ := encodeTrade_returns carries
  have first := decodeTrade_record carries encoded []
  have second := decodeTrade_record carries' (same ▸ encoded) []
  rw [first] at second
  cases second
  rfl

/-! ## The checks of the decoders -/

theorem passes_trade (login pw : List Char) (amount price : BitVec 64) :
    passes tradeChecks (tradeFields login pw amount price) = true := by
  rfl

theorem passes_tradeWith (login pw login2 pw2 : List Char) :
    passes tradeWithChecks (tradeWithFields login pw login2 pw2) = true := by
  rfl

/-! ## The round trips -/

/-- The arguments of encodetrade. -/
structure TradeCall (lib : JsonText) where
  login : List Char
  password : List Char
  amount : JsonArgument
  price : JsonArgument
  amountReal : BitVec 64
  priceReal : BitVec 64
  amount_real : amount.getReal lib = .ok amountReal
  price_real : price.getReal lib = .ok priceReal

def TradeCall.params (call : TradeCall lib) : List JsonArgument :=
  [.ofText call.login, .ofText call.password, call.amount, call.price]

def TradeCall.fields (call : TradeCall lib) : JsonObject :=
  tradeFields call.login call.password call.amountReal call.priceReal

/-- The arguments of encodetradewith. -/
structure TradeWithCall where
  login : List Char
  password : List Char
  partnerLogin : List Char
  partnerPassword : List Char

def TradeWithCall.params (call : TradeWithCall) : List JsonArgument :=
  [.ofText call.login, .ofText call.password, .ofText call.partnerLogin, .ofText call.partnerPassword]

/-- What encodetradewith writes. -/
def TradeWithCall.fields (call : TradeWithCall) : JsonObject :=
  tradeWithFields call.login call.password call.partnerPassword call.partnerPassword

theorem encodetrade_eq (call : TradeCall lib) : encodetrade g lib call.params = encodeTrade g lib call.fields := by
  simp only [encodetrade, TradeCall.params, JsonArgument.ofText, JsonArgument.getStr, JsonValue.getStr, ok_bind, call.amount_real,
    call.price_real, TradeCall.fields]

theorem encodetradewith_eq (call : TradeWithCall) :
    encodetradewith g lib call.params = encodeTrade g lib call.fields := by
  simp only [encodetradewith, TradeWithCall.params, JsonArgument.ofText, JsonArgument.getStr, JsonValue.getStr, ok_bind,
    TradeWithCall.fields]

theorem encoderandompubkeys_eq {σ : Type} {keys : RandomKeys σ} {s : σ} {addresses pubkeys : List (List Char)}
    (answer : keys.randomPubKeys s = some (addresses, pubkeys)) (login password : List Char) :
    encoderandompubkeys g lib keys s [.ofText login, .ofText password] =
      encodeTrade g lib (pubKeysFields addresses pubkeys login password) := by
  simp only [encoderandompubkeys, JsonArgument.ofText, JsonArgument.getStr, JsonValue.getStr, ok_bind, answer]

/-- An object without ERROR, with values in some fields. -/
def ReturnsFields (result : Except Failure JsonValue) (values : List (String × JsonValue)) : Prop :=
  ∃ fields, result = .ok (.obj fields) ∧ findValue fields "ERROR" = .bool false ∧
    ∀ pair ∈ values, findValue fields pair.1 = pair.2

def TradeReturns (g : SeededRand) (lib : JsonText) (call : TradeCall lib) : Prop :=
  ReturnsFields (exchange (encodetrade g lib call.params) (decodetrade g lib))
    [("LOGIN", .str call.login), ("PASSWORD", .str call.password), ("AMOUNT", .real call.amountReal),
      ("PRICE", .real call.priceReal)]

def TradeWithReturns (g : SeededRand) (lib : JsonText) (call : TradeWithCall) : Prop :=
  ReturnsFields (exchange (encodetradewith g lib call.params) (decodetradewith g lib))
    [("LOGIN", .str call.login), ("PASSWORD", .str call.password), ("BUY_LOGIN", .str call.partnerLogin),
      ("BUY_PASSWORD", .str call.partnerPassword)]

/-- A decoder answers with ERROR. -/
def Rejects (encoder : Except Failure JsonValue) (decoder : List JsonArgument → Except Failure JsonValue) : Prop :=
  exchange encoder decoder = .ok errorObject

/-- What the records promise for two calls of encodetrade, two of encodetradewith and one of encoderandompubkeys. -/
structure RecordsKept (g : SeededRand) (lib : JsonText) (trade trade' : TradeCall lib) (deal deal' : TradeWithCall)
    (pubkeys : Except Failure JsonValue) : Prop where
  tradeReturns : TradeReturns g lib trade ∧ TradeReturns g lib trade'
  dealReturns : TradeWithReturns g lib deal ∧ TradeWithReturns g lib deal'
  tradeDistinct : encodetrade g lib trade.params = encodetrade g lib trade'.params →
    trade.login = trade'.login ∧ trade.password = trade'.password ∧ trade.amountReal = trade'.amountReal ∧
      trade.priceReal = trade'.priceReal
  dealDistinct : encodetradewith g lib deal.params = encodetradewith g lib deal'.params → deal = deal'
  apart : encodetrade g lib trade.params ≠ encodetradewith g lib deal.params
  tradeRejects : Rejects (encodetradewith g lib deal.params) (decodetrade g lib) ∧ Rejects pubkeys (decodetrade g lib)
  dealRejects : Rejects (encodetrade g lib trade.params) (decodetradewith g lib) ∧ Rejects pubkeys (decodetradewith g lib)
  pubKeysReject : Rejects (encodetrade g lib trade.params) (decoderandompubkeys g lib) ∧
    Rejects (encodetradewith g lib deal.params) (decoderandompubkeys g lib)

theorem trade_returns {call : TradeCall lib} (carries : Carries g lib call.fields) : TradeReturns g lib call := by
  refine ⟨call.fields, ?_, rfl, ?_⟩
  · rw [encodetrade_eq, decodetrade, exchange_encodeTrade carries, TradeCall.fields, passes_trade, if_pos rfl]
  · simp only [List.forall_mem_cons, List.not_mem_nil, false_imp_iff, implies_true, and_true]
    exact ⟨rfl, rfl, rfl, rfl⟩

theorem tradeWith_returns_iff {call : TradeWithCall} (carries : Carries g lib call.fields) :
    TradeWithReturns g lib call ↔ call.partnerLogin = call.partnerPassword := by
  have result : exchange (encodetradewith g lib call.params) (decodetradewith g lib) = .ok (.obj call.fields) := by
    rw [encodetradewith_eq, decodetradewith, exchange_encodeTrade carries, TradeWithCall.fields, passes_tradeWith,
      if_pos rfl]
  constructor
  · intro ⟨fields, returned, _, values⟩
    rw [result] at returned
    cases returned
    have login : findValue call.fields "BUY_LOGIN" = .str call.partnerLogin := values ("BUY_LOGIN", _) (by simp)
    exact (JsonValue.str.inj login).symm
  · intro same
    refine ⟨call.fields, result, rfl, ?_⟩
    simp only [List.forall_mem_cons, List.not_mem_nil, false_imp_iff, implies_true, and_true]
    exact ⟨rfl, rfl, congrArg JsonValue.str same.symm, rfl⟩

theorem trade_distinct {trade trade' : TradeCall lib} (carries : Carries g lib trade.fields)
    (carries' : Carries g lib trade'.fields)
    (same : encodetrade g lib trade.params = encodetrade g lib trade'.params) :
    trade.login = trade'.login ∧ trade.password = trade'.password ∧ trade.amountReal = trade'.amountReal ∧
      trade.priceReal = trade'.priceReal := by
  rw [encodetrade_eq, encodetrade_eq] at same
  have fields := encodeTrade_injective carries carries' same
  have field (name : String) : findValue trade.fields name = findValue trade'.fields name := by rw [fields]
  exact ⟨JsonValue.str.inj (field "LOGIN"), JsonValue.str.inj (field "PASSWORD"), JsonValue.real.inj (field "AMOUNT"),
    JsonValue.real.inj (field "PRICE")⟩

theorem tradeWith_distinct {deal deal' : TradeWithCall} (carries : Carries g lib deal.fields)
    (carries' : Carries g lib deal'.fields) (own : deal.partnerLogin = deal.partnerPassword)
    (own' : deal'.partnerLogin = deal'.partnerPassword)
    (same : encodetradewith g lib deal.params = encodetradewith g lib deal'.params) : deal = deal' := by
  rw [encodetradewith_eq, encodetradewith_eq] at same
  have fields := encodeTrade_injective carries carries' same
  have field (name : String) : findValue deal.fields name = findValue deal'.fields name := by rw [fields]
  have login := JsonValue.str.inj (field "LOGIN")
  have password := JsonValue.str.inj (field "PASSWORD")
  have partner := JsonValue.str.inj (field "BUY_PASSWORD")
  cases deal
  cases deal'
  dsimp only at own own' login password partner
  rw [own, own', login, password, partner]

/-- The records keep their promises exactly if encodetradewith is called with one string for both its last arguments. -/
theorem records_kept_iff {σ : Type} (g : SeededRand) (lib : JsonText) (keys : RandomKeys σ) (s : σ)
    (trade trade' : TradeCall lib) (deal deal' : TradeWithCall) (login password : List Char)
    (addresses pubkeys : List (List Char)) (answer : keys.randomPubKeys s = some (addresses, pubkeys))
    (carries : ∀ fields ∈ [trade.fields, trade'.fields, deal.fields, deal'.fields,
      pubKeysFields addresses pubkeys login password], Carries g lib fields) :
    RecordsKept g lib trade trade' deal deal'
        (encoderandompubkeys g lib keys s [.ofText login, .ofText password]) ↔
      deal.partnerLogin = deal.partnerPassword ∧ deal'.partnerLogin = deal'.partnerPassword := by
  have ofTrade := carries trade.fields (by simp)
  have ofTrade' := carries trade'.fields (by simp)
  have ofDeal := carries deal.fields (by simp)
  have ofDeal' := carries deal'.fields (by simp)
  have ofKeys := carries (pubKeysFields addresses pubkeys login password) (by simp)
  constructor
  · intro kept
    exact ⟨(tradeWith_returns_iff ofDeal).mp kept.dealReturns.1, (tradeWith_returns_iff ofDeal').mp kept.dealReturns.2⟩
  · intro ⟨own, own'⟩
    -- each decoder asks for a field that the other records do not have
    have rejects {fields : JsonObject} (carried : Carries g lib fields) {checks : FieldChecks}
        (fails : passes checks fields = false) : Rejects (encodeTrade g lib fields) (decodeTrade g lib checks) := by
      rw [Rejects, exchange_encodeTrade carried, fails]
      rfl
    have distinct : encodeTrade g lib trade.fields ≠ encodeTrade g lib deal.fields := by
      intro same
      have equal := congrArg (findValue · "BUY_CURRENCY") (encodeTrade_injective ofTrade ofDeal same)
      cases equal
    have ofEncoders := encodetrade_eq (g := g) trade
    have ofWith : encodetradewith g lib deal.params = encodeTrade g lib deal.fields := encodetradewith_eq deal
    rw [encoderandompubkeys_eq answer]
    constructor
    case tradeReturns => exact ⟨trade_returns ofTrade, trade_returns ofTrade'⟩
    case dealReturns => exact ⟨(tradeWith_returns_iff ofDeal).mpr own, (tradeWith_returns_iff ofDeal').mpr own'⟩
    case tradeDistinct => exact trade_distinct ofTrade ofTrade'
    case dealDistinct => exact tradeWith_distinct ofDeal ofDeal' own own'
    case apart => rwa [ofEncoders, ofWith]
    case tradeRejects =>
      rw [ofWith]
      exact ⟨rejects ofDeal rfl, rejects ofKeys rfl⟩
    case dealRejects =>
      rw [ofEncoders]
      exact ⟨rejects ofTrade rfl, rejects ofKeys rfl⟩
    case pubKeysReject =>
      rw [ofEncoders, ofWith]
      exact ⟨rejects ofTrade rfl, rejects ofDeal rfl⟩

/-! ## Some records -/

/-- The "C" locale; the only real numbers are 0 and 1. -/
def plainWriter : JsonWriter where
  iswprint c := 0x20 ≤ c && c ≤ 0x7e
  fixed8 bits := ascii (if bits = 0x3ff0000000000000 then "1.00000000" else "0.00000000")

def JsonText.ofObjects (objects : List JsonObject) : JsonText where
  toJsonWriter := plainWriter
  toDouble i := if i = 1 then 0x3ff0000000000000 else 0
  readString text := (objects.find? fun trade => plainWriter.writeString (.obj trade) = text).map .obj

theorem carries_ofObjects {objects : List JsonObject}
    (distinct : (objects.map fun trade => plainWriter.writeString (.obj trade)).Nodup)
    (short : ∀ trade ∈ objects, (plainWriter.writeString (.obj trade)).length < 10 ^ 8) :
    ∀ trade ∈ objects, Carries g (.ofObjects objects) trade := by
  intro trade member
  constructor
  case codec =>
    change g.encodeDataSecurityEmail (plainWriter.writeString (.obj trade)) >>= g.decodeDataSecurityEmail = _
    have small := short trade member
    have room := SeededRand.emailLength_le (plainWriter.writeString (.obj trade)).length
    rw [SeededRand.dataSecurityEmail_round_trips.mpr (by rw [base64Length]; omega)]
    rfl
  case json =>
    change (objects.find? fun other => plainWriter.writeString (.obj other) =
      plainWriter.writeString (.obj trade)).map JsonValue.obj = _
    cases found : objects.find? fun other => plainWriter.writeString (.obj other) =
        plainWriter.writeString (.obj trade) with
    | none =>
        have missing := List.find?_eq_none.mp found trade member
        simp at missing
    | some other =>
        have text := List.find?_some found
        have same := List.inj_on_of_nodup_map distinct (List.mem_of_find?_eq_some found) member (by simpa using text)
        rw [same]
        rfl

def someTrade (price : BitVec 64) (objects : List JsonObject) : TradeCall (.ofObjects objects) where
  login := "alice".toList
  password := "secret".toList
  -- the integer 1
  amount := ⟨.int 1, false⟩
  price := ⟨.real price, false⟩
  amountReal := 0x3ff0000000000000
  priceReal := price
  amount_real := rfl
  price_real := rfl

def someDeal (partnerLogin partnerPassword : String) : TradeWithCall where
  login := "alice".toList
  password := "secret".toList
  partnerLogin := partnerLogin.toList
  partnerPassword := partnerPassword.toList

/-- A wallet that numbers its addresses. -/
def someKeys : RandomKeys Nat where
  mygetnewaddress s := some ('B' :: (toString s).toList, s + 1)
  getPubKey _ address := some ('0' :: '2' :: address)

def someAddresses : List (List Char) := (List.range 10).map fun s => 'B' :: (toString s).toList

def someObjects : List JsonObject :=
  [tradeFields "alice".toList "secret".toList 0x3ff0000000000000 0x3ff0000000000000,
    tradeFields "alice".toList "secret".toList 0x3ff0000000000000 0, (someDeal "bob" "bob").fields,
    (someDeal "carol" "carol").fields,
    pubKeysFields someAddresses (someAddresses.map fun address => '0' :: '2' :: address) "dave".toList "hidden".toList]

theorem records_kept_some :
    RecordsKept SeededRand.gnu (.ofObjects someObjects) (someTrade 0x3ff0000000000000 _) (someTrade 0 _)
      (someDeal "bob" "bob") (someDeal "carol" "carol")
      (encoderandompubkeys SeededRand.gnu (.ofObjects someObjects) someKeys 0
        [.ofText "dave".toList, .ofText "hidden".toList]) :=
  (records_kept_iff SeededRand.gnu (.ofObjects someObjects) someKeys 0 (someTrade 0x3ff0000000000000 _) (someTrade 0 _)
    (someDeal "bob" "bob") (someDeal "carol" "carol") "dave".toList "hidden".toList someAddresses
    (someAddresses.map fun address => '0' :: '2' :: address) (by decide +kernel)
    (carries_ofObjects (by decide +kernel) (by decide +kernel))).mpr ⟨rfl, rfl⟩

/-- The login of the partner is lost. -/
theorem partner_login_lost :
    ∃ (g : SeededRand) (lib : JsonText) (deal : TradeWithCall), Carries g lib deal.fields ∧
      ¬ TradeWithReturns g lib deal := by
  have carries : Carries SeededRand.gnu (.ofObjects [(someDeal "bob" "hers").fields]) (someDeal "bob" "hers").fields :=
    carries_ofObjects (by decide +kernel) (by decide +kernel) _ List.mem_cons_self
  refine ⟨SeededRand.gnu, .ofObjects [(someDeal "bob" "hers").fields], someDeal "bob" "hers", carries, ?_⟩
  rw [tradeWith_returns_iff carries]
  decide

end BitCrystal
