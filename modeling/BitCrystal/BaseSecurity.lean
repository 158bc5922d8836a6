import BitCrystal.BaseRoundTrips
import BitCrystal.Base58

namespace BitCrystal

open Data

/-! # base64.cpp -/

def base64Chars : Bytes := ascii "ABCDEFGHIJKLMNOPQRSTUVWXYZabcdefghijklmnopqrstuvwxyz0123456789+/"

/-- `isalnum`, in the C locale -/
def isAlnum (c : UInt8) : Bool :=
  (0x30 ≤ c && c ≤ 0x39) || (0x41 ≤ c && c ≤ 0x5a) || (0x61 ≤ c && c ≤ 0x7a)

def isBase64 (c : UInt8) : Bool := isAlnum c || c == 0x2b || c == 0x2f

/-- `char_array_4` of the encoder -/
def charArray4 (a b c : Nat) : List Nat :=
  [(a &&& 0xfc) >>> 2, ((a &&& 0x03) <<< 4) + ((b &&& 0xf0) >>> 4),
    ((b &&& 0x0f) <<< 2) + ((c &&& 0xc0) >>> 6), c &&& 0x3f]

/-- A turn of the loop of base64_encode on the first `i` bytes of `char_array_3` and `ret`. -/
def base64EncodeStep (s : Bytes × Bytes) (byte : UInt8) : Bytes × Bytes :=
  match s.1 ++ [byte] with
  | [a, b, c] => ([], s.2 ++ (charArray4 a.toNat b.toNat c.toNat).map (base64Chars.getD · 0))
  | charArray3 => (charArray3, s.2)

def base64Encode (bytesToEncode : Bytes) : Bytes :=
  let (charArray3, ret) := bytesToEncode.foldl base64EncodeStep ([], [])
  let i := charArray3.length
  if i ≠ 0 then
    let indices := charArray4 (charArray3.getD 0 0).toNat (charArray3.getD 1 0).toNat (charArray3.getD 2 0).toNat
    ret ++ (indices.take (i + 1)).map (base64Chars.getD · 0) ++ List.replicate (3 - i) padChar
  else ret

/-- `base64_chars.find(c)` as an `unsigned char` -/
def base64Find (c : UInt8) : Nat := if c ∈ base64Chars then base64Chars.idxOf c else 255

/-- `char_array_3` of the decoder -/
def charArray3 (a b c d : Nat) : Bytes :=
  [UInt8.ofNat ((a <<< 2) + ((b &&& 0x30) >>> 4)), UInt8.ofNat (((b &&& 0xf) <<< 4) + ((c &&& 0x3c) >>> 2)),
    UInt8.ofNat (((c &&& 0x3) <<< 6) + d)]

/-- A turn of the loop of base64_decode on the first `i` characters of `char_array_4` and `ret`. -/
def base64DecodeStep (s : Bytes × Bytes) (c : UInt8) : Bytes × Bytes :=
  match s.1 ++ [c] with
  | [a, b, c, d] => ([], s.2 ++ charArray3 (base64Find a) (base64Find b) (base64Find c) (base64Find d))
  | charArray4 => (charArray4, s.2)

/-- The loop of base64_decode over the string. -/
def base64DecodeLoop (s : Bytes × Bytes) : Bytes → Bytes × Bytes
  | [] => s
  | c :: rest => if c ≠ padChar ∧ isBase64 c then base64DecodeLoop (base64DecodeStep s c) rest else s

def base64Decode (encodedString : Bytes) : Bytes :=
  let (charArray4, ret) := base64DecodeLoop ([], []) encodedString
  let i := charArray4.length
  if i ≠ 0 then
    ret ++ (charArray3 (base64Find (charArray4.getD 0 0)) (base64Find (charArray4.getD 1 0))
      (base64Find (charArray4.getD 2 0)) (base64Find (charArray4.getD 3 0))).take (i - 1)
  else ret

/-! ## The same text as that of util.cpp -/

def quad (a b c : Nat) : List Nat := [a / 4, a % 4 * 16 + b / 16, b % 16 * 4 + c / 64, c % 64]

/-- The text of both encoders, three bytes at a time. -/
def base64Text : Bytes → Bytes
  | a :: b :: c :: rest => (quad a.toNat b.toNat c.toNat).map (pbase64.getD · 0) ++ base64Text rest
  | [a, b] => ((quad a.toNat b.toNat 0).take 3).map (pbase64.getD · 0) ++ [padChar]
  | [a] => ((quad a.toNat 0 0).take 2).map (pbase64.getD · 0) ++ [padChar, padChar]
  | [] => []

theorem and_high {n : Nat} (k w : Nat) (small : n / 2 ^ k < 2 ^ w) : (n &&& (2 ^ w - 1) <<< k) >>> k = n / 2 ^ k := by
  rw [Nat.shiftRight_and_distrib, Nat.shiftLeft_shiftRight, Nat.and_two_pow_sub_one_eq_mod, Nat.shiftRight_eq_div_pow,
    Nat.mod_eq_of_lt small]

theorem charArray4_eq (a b c : UInt8) : charArray4 a.toNat b.toNat c.toNat = quad a.toNat b.toNat c.toNat := by
  have low3 (n : Nat) : n &&& 0x03 = n % 4 := Nat.and_two_pow_sub_one_eq_mod n 2
  have low15 (n : Nat) : n &&& 0x0f = n % 16 := Nat.and_two_pow_sub_one_eq_mod n 4
  have low63 (n : Nat) : n &&& 0x3f = n % 64 := Nat.and_two_pow_sub_one_eq_mod n 6
  have ofA := a.toNat_lt
  have ofB := b.toNat_lt
  have ofC := c.toNat_lt
  have highA : (a.toNat &&& 0xfc) >>> 2 = a.toNat / 4 := and_high 2 6 (by omega)
  have highB : (b.toNat &&& 0xf0) >>> 4 = b.toNat / 16 := and_high 4 4 (by omega)
  have highC : (c.toNat &&& 0xc0) >>> 6 = c.toNat / 64 := and_high 6 2 (by omega)
  simp only [charArray4, quad, low3, low15, low63, highA, highB, highC, Nat.shiftLeft_eq, Nat.reducePow]

/-- The end of EncodeBase64. -/
def finish64 (s : EncodeState) : Bytes :=
  if s.mode ≠ 0 then
    let strRet := s.strRet ++ [pbase64.getD s.left 0] ++ [padChar]
    if s.mode = 1 then strRet ++ [padChar] else strRet
  else s.strRet

theorem encode64Step_one (left : Nat) (r : Bytes) (a : UInt8) :
    encode64Step ⟨0, left, r⟩ a = ⟨1, a.toNat % 4 * 16, r ++ [pbase64.getD (a.toNat / 4) 0]⟩ := by
  have low : a.toNat &&& 3 = a.toNat % 4 := Nat.and_two_pow_sub_one_eq_mod a.toNat 2
  simp only [encode64Step, low, Nat.shiftRight_eq_div_pow, Nat.shiftLeft_eq, Nat.reducePow]

theorem encode64Step_two (a b : UInt8) (r : Bytes) :
    encode64Step ⟨1, a.toNat % 4 * 16, r⟩ b =
      ⟨2, b.toNat % 16 * 4, r ++ [pbase64.getD (a.toNat % 4 * 16 + b.toNat / 16) 0]⟩ := by
  have low : b.toNat &&& 15 = b.toNat % 16 := Nat.and_two_pow_sub_one_eq_mod b.toNat 4
  have small := b.toNat_lt
  have sum : a.toNat % 4 * 2 ^ 4 ||| b.toNat / 16 = a.toNat % 4 * 2 ^ 4 + b.toNat / 16 := or_eq_add 4 (by omega)
  simp only [encode64Step, low, Nat.shiftRight_eq_div_pow, Nat.shiftLeft_eq, Nat.reducePow] at sum ⊢
  rw [sum]

theorem encode64Step_three (b c : UInt8) (r : Bytes) :
    encode64Step ⟨2, b.toNat % 16 * 4, r⟩ c = ⟨0, b.toNat % 16 * 4,
      r ++ [pbase64.getD (b.toNat % 16 * 4 + c.toNat / 64) 0] ++ [pbase64.getD (c.toNat % 64) 0]⟩ := by
  have low : c.toNat &&& 63 = c.toNat % 64 := Nat.and_two_pow_sub_one_eq_mod c.toNat 6
  have small := c.toNat_lt
  have sum : b.toNat % 16 * 2 ^ 2 ||| c.toNat / 64 = b.toNat % 16 * 2 ^ 2 + c.toNat / 64 := or_eq_add 2 (by omega)
  simp only [encode64Step, low, Nat.shiftRight_eq_div_pow, Nat.reducePow] at sum ⊢
  rw [sum]

theorem finish64_foldl (pch r : Bytes) (left : Nat) :
    finish64 (pch.foldl encode64Step ⟨0, left, r⟩) = r ++ base64Text pch := by
  induction pch using base64Text.induct generalizing r left with
  | case1 a b c rest ih =>
      rw [List.foldl_cons, List.foldl_cons, List.foldl_cons, encode64Step_one, encode64Step_two, encode64Step_three, ih,
        base64Text]
      simp only [quad, List.map_cons, List.map_nil, List.append_assoc, List.cons_append, List.nil_append]
  | case2 a b =>
      rw [List.foldl_cons, List.foldl_cons, List.foldl_nil, encode64Step_one, encode64Step_two, base64Text]
      simp [finish64, quad]
  | case3 a =>
      rw [List.foldl_cons, List.foldl_nil, encode64Step_one, base64Text]
      simp [finish64, quad]
  | case4 =>
      rw [List.foldl_nil, base64Text]
      simp [finish64]

theorem encodeBase64_eq (pch : Bytes) : encodeBase64 pch = base64Text pch := finish64_foldl pch [] 0

theorem foldl_base64EncodeStep (a b c : UInt8) (r : Bytes) :
    [a, b, c].foldl base64EncodeStep ([], r) =
      ([], r ++ (quad a.toNat b.toNat c.toNat).map (pbase64.getD · 0)) := by
  rw [← charArray4_eq]
  rfl

/-- The end of base64_encode. -/
def finishEncode (s : Bytes × Bytes) : Bytes :=
  if s.1.length ≠ 0 then
    let indices := charArray4 (s.1.getD 0 0).toNat (s.1.getD 1 0).toNat (s.1.getD 2 0).toNat
    s.2 ++ (indices.take (s.1.length + 1)).map (base64Chars.getD · 0) ++ List.replicate (3 - s.1.length) padChar
  else s.2

theorem finishEncode_foldl (bytes r : Bytes) :
    finishEncode (bytes.foldl base64EncodeStep ([], r)) = r ++ base64Text bytes := by
  induction bytes using base64Text.induct generalizing r with
  | case1 a b c rest ih =>
      have first := foldl_base64EncodeStep a b c r
      rw [show a :: b :: c :: rest = [a, b, c] ++ rest from rfl, List.foldl_append, first, ih, List.append_assoc]
      rfl
  | case2 a b =>
      have indices := charArray4_eq a b 0
      change r ++ ((charArray4 a.toNat b.toNat (0 : UInt8).toNat).take 3).map _ ++ [padChar] = _
      rw [indices, List.append_assoc]
      rfl
  | case3 a =>
      have indices := charArray4_eq a 0 0
      change r ++ ((charArray4 a.toNat (0 : UInt8).toNat (0 : UInt8).toNat).take 2).map _ ++ [padChar, padChar] = _
      rw [indices, List.append_assoc]
      rfl
  | case4 => exact (List.append_nil r).symm

theorem base64Encode_eq (bytes : Bytes) : base64Encode bytes = base64Text bytes := finishEncode_foldl bytes []

/-- The bytes of digits of 6 bits, four digits at a time; what is left over is dropped. -/
def unquads : List Nat → Bytes
  | a :: b :: c :: d :: rest =>
      [UInt8.ofNat (a * 4 + b / 16), UInt8.ofNat (b % 16 * 16 + c / 4), UInt8.ofNat (c % 4 * 64 + d)] ++ unquads rest
  | [a, b, c] => [UInt8.ofNat (a * 4 + b / 16), UInt8.ofNat (b % 16 * 16 + c / 4)]
  | [a, b] => [UInt8.ofNat (a * 4 + b / 16)]
  | _ => []

/-- The digits that both decoders read. -/
def base64Digits (s : Bytes) : List Nat :=
  (s.takeWhile fun c => lookUp decode64Table c ≠ -1).map fun c => (lookUp decode64Table c).toNat

theorem base64Digits_lt (s : Bytes) : ∀ digit ∈ base64Digits s, digit < 64 := by
  intro digit member
  obtain ⟨c, inside, rfl⟩ := List.mem_map.mp member
  have found : lookUp decode64Table c ≠ -1 := by simpa using List.mem_takeWhile_imp inside
  obtain ⟨value, small, same, _⟩ := (base64_fits c).exists_digit found
  rw [same, Int.toNat_natCast]
  exact small

theorem base64Digits_cons (c : UInt8) (s : Bytes) :
    base64Digits (c :: s) =
      if lookUp decode64Table c = -1 then [] else (lookUp decode64Table c).toNat :: base64Digits s := by
  unfold base64Digits
  split
  case isTrue stop => rw [List.takeWhile_cons_of_neg (by simpa using stop), List.map_nil]
  case isFalse go => rw [List.takeWhile_cons_of_pos (by simpa using go), List.map_cons]

theorem decodeLoop_digits (step : DecodeState → Nat → DecodeState) (s : DecodeState) (p : Bytes) :
    (decodeLoop decode64Table step s p).1 = (base64Digits p).foldl step s := by
  induction p generalizing s with
  | nil => rfl
  | cons c p ih =>
      rw [decodeLoop, base64Digits_cons]
      split
      · rfl
      · rw [ih, List.foldl_cons]

theorem foldl_decode64Step (digits : List Nat) (small : ∀ digit ∈ digits, digit < 64) (left : Nat) (r : Bytes) :
    (digits.foldl decode64Step ⟨r, 0, left⟩).vchRet = r ++ unquads digits := by
  have low15 (n : Nat) : n &&& 15 = n % 16 := Nat.and_two_pow_sub_one_eq_mod n 4
  have low3 (n : Nat) : n &&& 3 = n % 4 := Nat.and_two_pow_sub_one_eq_mod n 2
  have first (a : Nat) {b : Nat} (lt : b < 64) : a * 2 ^ 2 ||| b / 2 ^ 4 = a * 4 + b / 16 := or_eq_add 2 (by omega)
  have second (b : Nat) {c : Nat} (lt : c < 64) : b % 16 * 2 ^ 4 ||| c / 2 ^ 2 = b % 16 * 16 + c / 4 :=
    or_eq_add 4 (by omega)
  have third (c : Nat) {d : Nat} (lt : d < 64) : c % 4 * 2 ^ 6 ||| d = c % 4 * 64 + d := or_eq_add 6 lt
  induction digits using unquads.induct generalizing r left with
  | case1 a b c d rest ih =>
      have ofB := small b (by simp)
      have ofC := small c (by simp)
      have ofD := small d (by simp)
      simp only [List.foldl_cons, decode64Step, low15, low3, Nat.shiftLeft_eq, Nat.shiftRight_eq_div_pow, first a ofB,
        second b ofC, third c ofD]
      rw [ih fun digit member => small digit (by simp [member]), unquads]
      simp only [List.append_assoc, List.cons_append, List.nil_append]
  | case2 a b c =>
      have ofB := small b (by simp)
      have ofC := small c (by simp)
      simp only [List.foldl_cons, List.foldl_nil, decode64Step, low15, low3, Nat.shiftLeft_eq,
        Nat.shiftRight_eq_div_pow, first a ofB, second b ofC, unquads, List.append_assoc, List.cons_append, List.nil_append]
  | case3 a b =>
      have ofB := small b (by simp)
      simp only [List.foldl_cons, List.foldl_nil, decode64Step, Nat.shiftLeft_eq, Nat.shiftRight_eq_div_pow, first a ofB,
        unquads]
  | case4 digits four three two =>
      rcases digits with _ | ⟨a, _ | ⟨b, _ | ⟨c, _ | ⟨d, rest⟩⟩⟩⟩
      · simp [unquads]
      · simp [unquads, decode64Step]
      · exact absurd rfl (two a b)
      · exact absurd rfl (three a b c)
      · exact absurd rfl (four a b c d rest)

theorem decodeBase64_eq (p : Bytes) : (decodeBase64 p).1 = unquads (base64Digits p) := by
  change (decodeLoop decode64Table decode64Step ⟨[], 0, 0⟩ p).1.vchRet = _
  rw [decodeLoop_digits, foldl_decode64Step _ (base64Digits_lt p), List.nil_append]

theorem base64Find_eq (c : UInt8) :
    (c ≠ padChar ∧ isBase64 c = true ↔ lookUp decode64Table c ≠ -1) ∧
      (lookUp decode64Table c ≠ -1 → base64Find c = (lookUp decode64Table c).toNat) :=
  forall_lookUp (p := fun dec c =>
    (c ≠ padChar ∧ isBase64 c = true ↔ dec ≠ -1) ∧ (dec ≠ -1 → base64Find c = dec.toNat))
    (by decide +kernel) (by decide +kernel) c

theorem charArray3_first (a c d : Nat) {b : Nat} (small : b < 64) :
    (charArray3 a b c d).take 1 = [UInt8.ofNat (a * 4 + b / 16)] := by
  have high : (b &&& 0x30) >>> 4 = b / 16 := and_high 4 2 (by omega)
  simp only [charArray3, high, Nat.shiftLeft_eq, Nat.reducePow, List.take_succ_cons, List.take_zero]

theorem charArray3_eq {a b c d : Nat} (ofB : b < 64) (ofC : c < 64) :
    charArray3 a b c d =
      [UInt8.ofNat (a * 4 + b / 16), UInt8.ofNat (b % 16 * 16 + c / 4), UInt8.ofNat (c % 4 * 64 + d)] := by
  have low15 (n : Nat) : n &&& 0xf = n % 16 := Nat.and_two_pow_sub_one_eq_mod n 4
  have low3 (n : Nat) : n &&& 0x3 = n % 4 := Nat.and_two_pow_sub_one_eq_mod n 2
  have highB : (b &&& 0x30) >>> 4 = b / 16 := and_high 4 2 (by omega)
  have highC : (c &&& 0x3c) >>> 2 = c / 4 := and_high 2 4 (by omega)
  simp only [charArray3, low15, low3, highB, highC, Nat.shiftLeft_eq, Nat.reducePow]

/-- The end of base64_decode. -/
def finishDecode (s : Bytes × Bytes) : Bytes :=
  if s.1.length ≠ 0 then
    s.2 ++ (charArray3 (base64Find (s.1.getD 0 0)) (base64Find (s.1.getD 1 0))
      (base64Find (s.1.getD 2 0)) (base64Find (s.1.getD 3 0))).take (s.1.length - 1)
  else s.2

theorem finishDecode_eq {chars : Bytes} (few : chars.length < 4) (each : ∀ c ∈ chars, base64Find c < 64) (r : Bytes) :
    finishDecode (chars, r) = r ++ unquads (chars.map base64Find) := by
  match chars with
  | [] => simp [finishDecode, unquads]
  | [a] => simp [finishDecode, unquads]
  | [a, b] =>
      have first := charArray3_first (base64Find a) (base64Find 0) (base64Find 0) (each b (by simp))
      change r ++ (charArray3 (base64Find a) (base64Find b) (base64Find 0) (base64Find 0)).take 1 = _
      rw [first]
      rfl
  | [a, b, c] =>
      have three := charArray3_eq (a := base64Find a) (d := base64Find 0) (each b (by simp)) (each c (by simp))
      change r ++ (charArray3 (base64Find a) (base64Find b) (base64Find c) (base64Find 0)).take 2 = _
      rw [three]
      rfl
  | a :: b :: c :: d :: rest =>
      simp only [List.length_cons] at few
      omega

theorem finishDecode_loop (s : Bytes) {chars : Bytes} (few : chars.length < 4)
    (each : ∀ c ∈ chars, base64Find c < 64) (r : Bytes) :
    finishDecode (base64DecodeLoop (chars, r) s) = r ++ unquads (chars.map base64Find ++ base64Digits s) := by
  induction s generalizing chars r with
  | nil =>
      rw [base64DecodeLoop, finishDecode_eq few each, show base64Digits [] = [] from rfl, List.append_nil]
  | cons c s ih =>
      rw [base64DecodeLoop, base64Digits_cons]
      by_cases stop : lookUp decode64Table c = -1
      · have outside : ¬ (c ≠ padChar ∧ isBase64 c = true) := fun inside => (base64Find_eq c).1.mp inside stop
        rw [if_neg outside, if_pos stop, finishDecode_eq few each, List.append_nil]
      · have inside := (base64Find_eq c).1.mpr stop
        have digit := (base64Find_eq c).2 stop
        have small : base64Find c < 64 := by
          obtain ⟨value, lt, same, _⟩ := (base64_fits c).exists_digit stop
          rw [digit, same, Int.toNat_natCast]
          exact lt
        rw [if_pos inside, if_neg stop, ← digit]
        match chars, few, each with
        | [], _, _ => exact @ih [c] (by simp) (by simpa using small) r
        | [a], _, each =>
            exact @ih [a, c] (by simp) (by simpa using ⟨each a (by simp), small⟩) r
        | [a, b], _, each =>
            exact @ih [a, b, c] (by simp) (by simpa using ⟨each a (by simp), each b (by simp), small⟩) r
        | [a, b, b'], _, each =>
            have three := charArray3_eq (a := base64Find a) (d := base64Find c) (each b (by simp)) (each b' (by simp))
            have rest := @ih [] (by simp) (by simp)
              (r ++ charArray3 (base64Find a) (base64Find b) (base64Find b') (base64Find c))
            rw [List.map_nil, List.nil_append, three, List.append_assoc] at rest
            change finishDecode (base64DecodeLoop ([], r ++ charArray3 _ _ _ _) s) = _
            rw [three, rest]
            rfl
        | a :: b :: b' :: d :: rest, few, _ =>
            simp only [List.length_cons] at few
            omega

theorem base64Decode_eq (s : Bytes) : base64Decode s = unquads (base64Digits s) :=
  finishDecode_loop s (by simp) (by simp) []

/-! ## Lengths -/

def base64Length (count : Nat) : Nat := 4 * ((count + 2) / 3)

theorem length_base64Text (pch : Bytes) : (base64Text pch).length = base64Length pch.length := by
  induction pch using base64Text.induct with
  | case1 a b c rest ih =>
      rw [base64Text, List.length_append, List.length_map, ih]
      simp only [quad, base64Length, List.length_cons, List.length_nil]
      omega
  | case2 a b => simp [base64Text, quad, base64Length]
  | case3 a => simp [base64Text, quad, base64Length]
  | case4 => rfl

theorem length_unquads (digits : List Nat) : (unquads digits).length = digits.length * 3 / 4 := by
  induction digits using unquads.induct with
  | case1 a b c d rest ih =>
      rw [unquads, List.length_append, ih]
      simp only [List.length_cons, List.length_nil]
      omega
  | case2 a b c => simp [unquads]
  | case3 a b => simp [unquads]
  | case4 digits four three two =>
      match digits with
      | [] => rfl
      | [a] => simp [unquads]
      | [a, b] => exact absurd rfl (two a b)
      | [a, b, c] => exact absurd rfl (three a b c)
      | a :: b :: c :: d :: rest => exact absurd rfl (four a b c d rest)

theorem unquads_prefix {digits more : List Nat} (front : digits <+: more) : unquads digits <+: unquads more := by
  induction digits using unquads.induct generalizing more with
  | case1 a b c d rest ih =>
      obtain ⟨tail, rfl⟩ := front
      rw [List.cons_append, List.cons_append, List.cons_append, List.cons_append, unquads, unquads]
      exact (List.prefix_append_right_inj _).mpr (ih (List.prefix_append rest tail))
  | case2 a b c =>
      obtain ⟨tail, rfl⟩ := front
      cases tail with
      | nil => exact List.prefix_rfl
      | cons d tail => exact List.prefix_append [_, _] _
  | case3 a b =>
      obtain ⟨tail, rfl⟩ := front
      match tail with
      | [] => exact List.prefix_rfl
      | [c] => exact List.prefix_append [_] _
      | c :: d :: tail => exact List.prefix_append [_] _
  | case4 digits four three two =>
      match digits with
      | [] => exact List.nil_prefix
      | [a] => exact List.nil_prefix
      | [a, b] => exact absurd rfl (two a b)
      | [a, b, c] => exact absurd rfl (three a b c)
      | a :: b :: c :: d :: rest => exact absurd rfl (four a b c d rest)

end BitCrystal
