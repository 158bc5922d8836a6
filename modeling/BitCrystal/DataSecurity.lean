import BitCrystal.BaseSecurity

namespace BitCrystal

open Data

/-! # The data security codec

The functions of rpcdump.cpp and base_security.cpp that mask a Base64 text with a table of
random numbers. -/

/-- The loop of `_rand(min, max)` ends, however often rand() was called before. -/
def Supplies (rand : Nat → Nat) (min max : Nat) : Prop := ∀ called, ∃ call, called ≤ call ∧ min < rand call % max

/-- What the calls of rand() return after `srand(1420297560)`, the seed of `_srand(0)`. -/
structure SeededRand where
  rand : Nat → Nat
  supplies : Supplies rand 1 127

/-- The call of rand() that ends the loop of `_rand(1, 127)`. -/
def SeededRand.accepted (g : SeededRand) (called : Nat) : Nat := Nat.find (g.supplies called)

/-- The loop of get_encoded_table_my after `called` calls of rand(). -/
def SeededRand.tableFrom (g : SeededRand) : Nat → Nat → Bytes
  | 0, _ => []
  | count + 1, called =>
      let call := g.accepted called
      UInt8.ofNat (g.rand call % 127) :: g.tableFrom count (call + 1)

/-- A loop whose counter is an `int` has no defined end for `len` from 2^31 on. -/
def intLoop (len : Nat) : Except Failure Unit := require (len < 2 ^ 31) (.undefined "int i")

/-- `get_encoded_table_my` -/
def SeededRand.encodedTable (g : SeededRand) (inLen : Nat) : Except Failure Bytes := do
  intLoop inLen
  return g.tableFrom inLen 0

def xorTable : Bytes → Bytes → Bytes
  | c :: rest, t :: table => (c ^^^ t) :: xorTable rest table
  | rest, _ => rest

/-- The vector of decodeBase64Data, copied by decodeEnding and then into a string. -/
def decodeBase64DataLight (str2 : Bytes) : Except Failure Bytes := do
  let cpy := (decodeBase64 (cStr str2)).1
  intLoop cpy.length
  return cpy

namespace SeededRand

variable (g : SeededRand)

/-- `in_len` is an `unsigned int`, and so is `len`. -/
def encodeSecurity (bytesToEncode : Bytes) (inLen : Nat) : Except Failure Bytes := do
  let encode := base64Encode (bytesToEncode.take inLen)
  let table ← g.encodedTable (encode.length % 2 ^ 32)
  return xorTable encode table

/-- base64_decode takes the size of the string as an `int`. -/
def decodeSecurity (encodedString : Bytes) : Except Failure Bytes := do
  let table ← g.encodedTable (encodedString.length % 2 ^ 32)
  let encodedString := xorTable encodedString table
  intLoop encodedString.length
  return base64Decode encodedString

def encodeDataSecurity (y : Bytes) : Except Failure Bytes := do
  let encode ← g.encodeSecurity y (y.length % 2 ^ 32)
  return encodeBase64 encode

def decodeDataSecurity (str : Bytes) : Except Failure Bytes := do
  let str ← decodeBase64DataLight str
  g.decodeSecurity str

def encodeDataSecurityEmail (y : Bytes) : Except Failure Bytes := do
  let encode := encodeBase64 y
  let encode := encodeBase64 encode
  let encode := encodeBase64 encode
  let encode := encodeBase64 encode
  let encode ← g.encodeSecurity encode (encode.length % 2 ^ 32)
  return encodeBase64 encode

def decodeDataSecurityEmail (str : Bytes) : Except Failure Bytes := do
  let str ← decodeBase64DataLight str
  let str2 ← g.decodeSecurity str
  let ret ← decodeBase64DataLight str2
  let ret ← decodeBase64DataLight ret
  let ret ← decodeBase64DataLight ret
  decodeBase64DataLight ret

end SeededRand

/-! ## One layer of Base64 -/

theorem intLoop_eq_ok {len : Nat} {done : Unit} : intLoop len = .ok done ↔ len < 2 ^ 31 := require_eq_ok

theorem intLoop_of_lt {len : Nat} (short : len < 2 ^ 31) : intLoop len = .ok () := require_of short

/-- What DecodeBase64 makes of a string. -/
def light (s : Bytes) : Bytes := unquads (base64Digits s)

/-- A NUL character ends the string for DecodeBase64, as any character outside the alphabet does. -/
theorem base64Digits_cStr (s : Bytes) : base64Digits (cStr s) = base64Digits s := by
  induction s with
  | nil => rfl
  | cons c s ih =>
      by_cases terminator : c = 0
      · rw [terminator]
        rfl
      · have kept : cStr (c :: s) = c :: cStr s := List.takeWhile_cons_of_pos (by simpa using terminator)
        rw [kept, base64Digits_cons, base64Digits_cons, ih]

theorem decodeBase64DataLight_eq_ok {s z : Bytes} :
    decodeBase64DataLight s = .ok z ↔ (light s).length < 2 ^ 31 ∧ z = light s := by
  have cpy : (decodeBase64 (cStr s)).1 = light s := by rw [decodeBase64_eq, base64Digits_cStr, light]
  simp only [decodeBase64DataLight, cpy, bind_eq_ok, intLoop_eq_ok, pure_eq_ok, exists_const]
  exact and_congr_right fun _ => eq_comm

theorem light_encodeBase64 (x : Bytes) : light (encodeBase64 x) = x := by
  rw [light, ← decodeBase64_eq]
  exact congrArg Prod.fst (base64.decode_encode x)

theorem light_base64Text (x : Bytes) : light (base64Text x) = x := by
  rw [← encodeBase64_eq, light_encodeBase64]

theorem base64Digits_front {s text : Bytes} (front : s <+: text) : base64Digits s <+: base64Digits text := by
  obtain ⟨tail, rfl⟩ := front
  induction s with
  | nil => exact List.nil_prefix
  | cons c s ih =>
      rw [List.cons_append, base64Digits_cons, base64Digits_cons]
      split
      · exact List.prefix_rfl
      · exact (List.prefix_cons_inj _).mpr ih

theorem light_front {s text : Bytes} (front : s <+: text) : light s <+: light text :=
  unquads_prefix (base64Digits_front front)

theorem length_light (s : Bytes) : (light s).length ≤ s.length * 3 / 4 := by
  have digits : (base64Digits s).length ≤ s.length := by
    rw [base64Digits, List.length_map]
    exact (List.takeWhile_sublist _).length_le
  rw [light, length_unquads]
  omega

theorem length_encodeBase64 (x : Bytes) : (encodeBase64 x).length = base64Length x.length := by
  rw [encodeBase64_eq, length_base64Text]

/-! ## The mask -/

theorem length_xorTable (s table : Bytes) : (xorTable s table).length = s.length := by
  induction s generalizing table with
  | nil => rfl
  | cons c s ih =>
      cases table with
      | nil => rfl
      | cons t table => rw [xorTable, List.length_cons, ih, List.length_cons]

theorem xorTable_xorTable (s table : Bytes) : xorTable (xorTable s table) table = s := by
  induction s generalizing table with
  | nil => rfl
  | cons c s ih =>
      cases table with
      | nil => rfl
      | cons t table =>
          rw [xorTable, xorTable, ih, UInt8.xor_assoc, UInt8.xor_self, UInt8.xor_zero]

namespace SeededRand

variable {g : SeededRand}

theorem encodedTable_eq_ok {inLen : Nat} {table : Bytes} :
    g.encodedTable inLen = .ok table ↔ inLen < 2 ^ 31 ∧ table = g.tableFrom inLen 0 := by
  simp only [encodedTable, bind_eq_ok, intLoop_eq_ok, pure_eq_ok, exists_const]
  exact and_congr_right fun _ => eq_comm

def masked (g : SeededRand) (x : Bytes) : Bytes := xorTable (base64Text x) (g.tableFrom (base64Length x.length) 0)

theorem length_masked (x : Bytes) : (g.masked x).length = base64Length x.length := by
  rw [masked, length_xorTable, length_base64Text]

theorem encodeSecurity_eq {y : Bytes} {inLen : Nat} (short : base64Length (y.take inLen).length < 2 ^ 31) :
    g.encodeSecurity y inLen = .ok (g.masked (y.take inLen)) := by
  have whole : base64Length (y.take inLen).length % 2 ^ 32 = base64Length (y.take inLen).length :=
    Nat.mod_eq_of_lt (by omega)
  have table := (encodedTable_eq_ok (g := g)).mpr ⟨short, rfl⟩
  rw [encodeSecurity, base64Encode_eq, length_base64Text, whole, table]
  rfl

theorem length_encodeSecurity {y text : Bytes} {inLen : Nat} (run : g.encodeSecurity y inLen = .ok text) :
    text.length = base64Length (y.take inLen).length := by
  simp only [encodeSecurity, base64Encode_eq, bind_eq_ok, pure_eq_ok] at run
  obtain ⟨table, _, rfl⟩ := run
  rw [length_xorTable, length_base64Text]

theorem decodeSecurity_masked {x : Bytes} (short : base64Length x.length < 2 ^ 31) :
    g.decodeSecurity (g.masked x) = .ok x := by
  have whole : base64Length x.length % 2 ^ 32 = base64Length x.length := Nat.mod_eq_of_lt (by omega)
  have table := (encodedTable_eq_ok (g := g)).mpr ⟨short, rfl⟩
  rw [decodeSecurity, length_masked, whole, table, ok_bind, masked, xorTable_xorTable]
  dsimp only
  rw [length_base64Text, intLoop_of_lt short, ok_bind, base64Decode_eq]
  exact congrArg Except.ok (light_base64Text x)

/-- What the two masking functions and a layer of Base64 between them do to the first `inLen` bytes. -/
theorem security_eq_ok {y z : Bytes} {inLen : Nat} :
    ((do let encode ← g.encodeSecurity y inLen
         let str ← decodeBase64DataLight (encodeBase64 encode)
         g.decodeSecurity str) : Except Failure Bytes) = .ok z ↔
      base64Length (y.take inLen).length < 2 ^ 31 ∧ z = y.take inLen := by
  constructor
  · intro run
    simp only [bind_eq_ok] at run
    obtain ⟨text, first, str, second, third⟩ := run
    rw [decodeBase64DataLight_eq_ok, light_encodeBase64] at second
    obtain ⟨fits, rfl⟩ := second
    rw [length_encodeSecurity first] at fits
    rw [encodeSecurity_eq fits] at first
    cases first
    rw [decodeSecurity_masked fits] at third
    cases third
    exact ⟨fits, rfl⟩
  · rintro ⟨short, rfl⟩
    have copy : decodeBase64DataLight (encodeBase64 (g.masked (y.take inLen))) = .ok (g.masked (y.take inLen)) := by
      rw [decodeBase64DataLight_eq_ok, light_encodeBase64, length_masked]
      exact ⟨short, rfl⟩
    rw [encodeSecurity_eq short, ok_bind, copy, ok_bind, decodeSecurity_masked short]

/-! ## Round trips -/

def fourLayers (y : Bytes) : Bytes := encodeBase64 (encodeBase64 (encodeBase64 (encodeBase64 y)))

def fourLight (s : Bytes) : Bytes := light (light (light (light s)))

theorem fourLight_fourLayers (y : Bytes) : fourLight (fourLayers y) = y := by
  rw [fourLight, fourLayers, light_encodeBase64, light_encodeBase64, light_encodeBase64, light_encodeBase64]

theorem fourLight_front {s text : Bytes} (front : s <+: text) : fourLight s <+: fourLight text :=
  light_front (light_front (light_front (light_front front)))

/-- How long the text is that encodeDataSecurityEmail masks for `count` bytes. -/
def emailLength (count : Nat) : Nat := base64Length (base64Length (base64Length (base64Length count)))

theorem length_fourLayers (y : Bytes) : (fourLayers y).length = emailLength y.length := by
  simp only [fourLayers, emailLength, length_encodeBase64]

theorem dataSecurity_eq_ok {y z : Bytes} :
    g.encodeDataSecurity y >>= g.decodeDataSecurity = .ok z ↔
      base64Length (y.take (y.length % 2 ^ 32)).length < 2 ^ 31 ∧ z = y.take (y.length % 2 ^ 32) := by
  rw [← security_eq_ok (g := g)]
  simp only [encodeDataSecurity, decodeDataSecurity, bind_assoc, pure_bind]

theorem emailLength_le (count : Nat) : 81 * emailLength count ≤ 256 * count + 1400 := by
  simp only [emailLength, base64Length]
  omega

theorem length_fourLight (s : Bytes) : 256 * (fourLight s).length ≤ 81 * s.length := by
  have first := length_light s
  have second := length_light (light s)
  have third := length_light (light (light s))
  have fourth := length_light (light (light (light s)))
  rw [fourLight]
  omega

theorem four_eq_ok {s z : Bytes} (short : s.length < 2 ^ 31) :
    ((do let ret ← decodeBase64DataLight s
         let ret ← decodeBase64DataLight ret
         let ret ← decodeBase64DataLight ret
         decodeBase64DataLight ret) : Except Failure Bytes) = .ok z ↔ z = fourLight s := by
  have first := length_light s
  have second := length_light (light s)
  have third := length_light (light (light s))
  have fourth := length_light (light (light (light s)))
  have layer {t : Bytes} (fits : (light t).length < 2 ^ 31) : decodeBase64DataLight t = .ok (light t) :=
    decodeBase64DataLight_eq_ok.mpr ⟨fits, rfl⟩
  rw [layer (by omega), ok_bind, layer (by omega), ok_bind, layer (by omega), ok_bind, layer (by omega), Except.ok.injEq]
  exact eq_comm

theorem dataSecurityEmail_eq_ok {y z : Bytes} :
    g.encodeDataSecurityEmail y >>= g.decodeDataSecurityEmail = .ok z ↔
      base64Length ((fourLayers y).take (emailLength y.length % 2 ^ 32)).length < 2 ^ 31 ∧
        z = fourLight ((fourLayers y).take (emailLength y.length % 2 ^ 32)) := by
  have steps : g.encodeDataSecurityEmail y >>= g.decodeDataSecurityEmail =
      (do let encode ← g.encodeSecurity (fourLayers y) (emailLength y.length % 2 ^ 32)
          let str ← decodeBase64DataLight (encodeBase64 encode)
          g.decodeSecurity str) >>= (fun str2 => do
        let ret ← decodeBase64DataLight str2
        let ret ← decodeBase64DataLight ret
        let ret ← decodeBase64DataLight ret
        decodeBase64DataLight ret) := by
    simp only [encodeDataSecurityEmail, decodeDataSecurityEmail, ← length_fourLayers, bind_assoc, pure_bind, fourLayers]
  have small {x : Bytes} (short : base64Length x.length < 2 ^ 31) : x.length < 2 ^ 31 := by
    rw [base64Length] at short
    omega
  rw [steps, bind_eq_ok]
  constructor
  · rintro ⟨str2, run, layers⟩
    obtain ⟨short, rfl⟩ := security_eq_ok.mp run
    exact ⟨short, (four_eq_ok (small short)).mp layers⟩
  · rintro ⟨short, rfl⟩
    exact ⟨_, security_eq_ok.mpr ⟨short, rfl⟩, (four_eq_ok (small short)).mpr rfl⟩

theorem base64Length_le (count : Nat) : count ≤ base64Length count := by
  rw [base64Length]
  omega

theorem dataSecurity_round_trips {y : Bytes} :
    g.encodeDataSecurity y >>= g.decodeDataSecurity = .ok y ↔ base64Length y.length < 2 ^ 31 := by
  rw [dataSecurity_eq_ok]
  constructor
  · rintro ⟨short, whole⟩
    rwa [← whole] at short
  · intro short
    have le := base64Length_le y.length
    have whole : y.length % 2 ^ 32 = y.length := Nat.mod_eq_of_lt (by omega)
    rw [whole, List.take_length]
    exact ⟨short, rfl⟩

theorem dataSecurityEmail_round_trips {y : Bytes} :
    g.encodeDataSecurityEmail y >>= g.decodeDataSecurityEmail = .ok y ↔
      base64Length (emailLength y.length) < 2 ^ 31 := by
  rw [dataSecurityEmail_eq_ok, List.length_take, length_fourLayers]
  constructor
  · rintro ⟨short, whole⟩
    by_cases narrow : emailLength y.length < 2 ^ 32
    · rwa [Nat.mod_eq_of_lt narrow, Nat.min_self] at short
    · -- what the cut text is read as is shorter than `y`
      have bound := length_fourLight ((fourLayers y).take (emailLength y.length % 2 ^ 32))
      rw [← whole, List.length_take, length_fourLayers] at bound
      have room := emailLength_le y.length
      omega
  · intro short
    have le := base64Length_le (emailLength y.length)
    have whole : emailLength y.length % 2 ^ 32 = emailLength y.length := Nat.mod_eq_of_lt (by omega)
    have all : (fourLayers y).take (emailLength y.length) = fourLayers y := by
      rw [← length_fourLayers, List.take_length]
    rw [whole, Nat.min_self, all, fourLight_fourLayers]
    exact ⟨short, rfl⟩

/-- The codecs give back a byte string exactly if fewer than 2^31 characters are masked for it. -/
theorem codecs_round_trip_iff (g : SeededRand) (y : Bytes) :
    (g.encodeDataSecurity y >>= g.decodeDataSecurity = .ok y ↔ base64Length y.length < 2 ^ 31) ∧
      (g.encodeDataSecurityEmail y >>= g.decodeDataSecurityEmail = .ok y ↔
        base64Length (emailLength y.length) < 2 ^ 31) :=
  ⟨dataSecurity_round_trips, dataSecurityEmail_round_trips⟩

/-- Some values of rand(), and after them one that is accepted. -/
def ofValues (values : List Nat) : SeededRand where
  rand call := values.getD call 2
  supplies called := by
    have after : values.getD (max called values.length) 2 = 2 := List.getD_eq_default _ _ (le_max_right _ _)
    refine ⟨max called values.length, le_max_left _ _, ?_⟩
    dsimp only
    rw [after]
    decide

/-- The first calls of rand() in the GNU C library -/
def gnuValues : List Nat := [
    1854275528, 1885911737, 1505675059, 1801011363, 427196123, 945977572, 1763495234, 1862176026, 329747884,
    1304379645, 1887487673, 656634506, 867917528, 753132433, 258123078, 181511838, 171336958, 1839883466,
    942999967, 1019095419, 1191885741, 1168159510, 359717006, 1519433691, 983434921, 211618031, 969447311,
    190227773, 1758215230, 1885827390, 1137614953, 1465007110, 1624255479, 495806365, 1118534825, 2051451603,
    1441783937, 734546412, 1766143981, 1771531822, 2038926057, 1506148007, 280682680, 759359938, 111796792,
    538805759, 940871776, 283133750, 231205577, 1883871744, 1302229169, 1423091318, 904547606, 1661946175,
    795041361, 1887982527, 1873564206, 1764488672, 2078210301, 1484295789, 1502832414, 1068341606, 801819251,
    979604245, 1564147971]

def gnu : SeededRand := ofValues gnuValues

theorem codecs_long_string :
    ∃ (g : SeededRand) (y : Bytes), g.encodeDataSecurity y >>= g.decodeDataSecurity ≠ .ok y ∧
      g.encodeDataSecurityEmail y >>= g.decodeDataSecurityEmail ≠ .ok y := by
  have length : (List.replicate (2 ^ 31) (0 : UInt8)).length = 2 ^ 31 := List.length_replicate
  refine ⟨gnu, List.replicate (2 ^ 31) 0, ?_, ?_⟩
  · rw [Ne, dataSecurity_round_trips, length]
    decide
  · rw [Ne, dataSecurityEmail_round_trips, length]
    decide

end SeededRand

end BitCrystal
