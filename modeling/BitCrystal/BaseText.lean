import BitCrystal.Data.Packing
import BitCrystal.Primitives

namespace BitCrystal

open Data

/-! # Base64 and Base32 text -/

/-- The characters of a string literal. -/
def ascii (text : String) : Bytes := text.toList.map fun c => UInt8.ofNat c.toNat

def bytesOf (text : List Char) : Bytes := text.map fun c => UInt8.ofNat c.toNat

def charsOf (bytes : Bytes) : List Char := bytes.map fun byte => Char.ofNat byte.toNat

theorem bytesOf_charsOf (bytes : Bytes) : bytesOf (charsOf bytes) = bytes := by
  have each : ∀ byte : UInt8, UInt8.ofNat (Char.ofNat byte.toNat).toNat = byte := forall_byte (by decide +kernel)
  induction bytes with
  | nil => rfl
  | cons byte bytes ih =>
      change UInt8.ofNat (Char.ofNat byte.toNat).toNat :: bytesOf (charsOf bytes) = byte :: bytes
      rw [each byte, ih]

/-- `'='` -/
def padChar : UInt8 := 0x3d

/-- The local variables of EncodeBase64 and EncodeBase32. -/
structure EncodeState where
  mode : Nat
  left : Nat
  strRet : Bytes

/-- The local variables of DecodeBase64 and DecodeBase32. -/
structure DecodeState where
  vchRet : Bytes
  mode : Nat
  left : Nat

/-- `table[(unsigned char)c]` -/
def lookUp (table : List Int) (c : UInt8) : Int := table.getD c.toNat (-1)

/-- The loop of the decoders over the string up to its terminator: the variables at its end and
the string from `p` on. -/
def decodeLoop (table : List Int) (step : DecodeState → Nat → DecodeState) (s : DecodeState) :
    Bytes → DecodeState × Bytes
  | [] => (s, [])
  | c :: p =>
      let dec := lookUp table c
      if dec = -1 then (s, c :: p) else decodeLoop table step (step s dec.toNat) p

/-- Whether `p` lacks `count` characters `'='`, or has a character of the table after them. -/
def paddingFails (table : List Int) (count : Nat) (p : Bytes) : Bool :=
  (List.range count).any (fun i => p.getD i 0 != padChar) || lookUp table (p.getD count 0) != -1

/-! ## Base64 -/

def pbase64 : Bytes := ascii "ABCDEFGHIJKLMNOPQRSTUVWXYZabcdefghijklmnopqrstuvwxyz0123456789+/"

def encode64Step (s : EncodeState) (byte : UInt8) : EncodeState :=
  let enc := byte.toNat
  match s.mode with
  | 0 => ⟨1, (enc &&& 3) <<< 4, s.strRet ++ [pbase64.getD (enc >>> 2) 0]⟩
  | 1 => ⟨2, (enc &&& 15) <<< 2, s.strRet ++ [pbase64.getD (s.left ||| (enc >>> 4)) 0]⟩
  | 2 => ⟨0, s.left, s.strRet ++ [pbase64.getD (s.left ||| (enc >>> 6)) 0] ++ [pbase64.getD (enc &&& 63) 0]⟩
  | _ => s

def encodeBase64 (pch : Bytes) : Bytes :=
  let s := pch.foldl encode64Step ⟨0, 0, []⟩
  if s.mode ≠ 0 then
    let strRet := s.strRet ++ [pbase64.getD s.left 0] ++ [padChar]
    if s.mode = 1 then strRet ++ [padChar] else strRet
  else s.strRet

def decode64Table : List Int := [
  -1, -1, -1, -1, -1, -1, -1, -1, -1, -1, -1, -1, -1, -1, -1, -1, -1, -1, -1, -1,
  -1, -1, -1, -1, -1, -1, -1, -1, -1, -1, -1, -1, -1, -1, -1, -1, -1, -1, -1, -1,
  -1, -1, -1, 62, -1, -1, -1, 63, 52, 53, 54, 55, 56, 57, 58, 59, 60, 61, -1, -1,
  -1, -1, -1, -1, -1,  0,  1,  2,  3,  4,  5,  6,  7,  8,  9, 10, 11, 12, 13, 14,
  15, 16, 17, 18, 19, 20, 21, 22, 23, 24, 25, -1, -1, -1, -1, -1, -1, 26, 27, 28,
  29, 30, 31, 32, 33, 34, 35, 36, 37, 38, 39, 40, 41, 42, 43, 44, 45, 46, 47, 48,
  49, 50, 51, -1, -1, -1, -1, -1, -1, -1, -1, -1, -1, -1, -1, -1, -1, -1, -1, -1,
  -1, -1, -1, -1, -1, -1, -1, -1, -1, -1, -1, -1, -1, -1, -1, -1, -1, -1, -1, -1,
  -1, -1, -1, -1, -1, -1, -1, -1, -1, -1, -1, -1, -1, -1, -1, -1, -1, -1, -1, -1,
  -1, -1, -1, -1, -1, -1, -1, -1, -1, -1, -1, -1, -1, -1, -1, -1, -1, -1, -1, -1,
  -1, -1, -1, -1, -1, -1, -1, -1, -1, -1, -1, -1, -1, -1, -1, -1, -1, -1, -1, -1,
  -1, -1, -1, -1, -1, -1, -1, -1, -1, -1, -1, -1, -1, -1, -1, -1, -1, -1, -1, -1,
  -1, -1, -1, -1, -1, -1, -1, -1, -1, -1, -1, -1, -1, -1, -1, -1]

def decode64Step (s : DecodeState) (dec : Nat) : DecodeState :=
  match s.mode with
  | 0 => { s with left := dec, mode := 1 }
  | 1 => ⟨s.vchRet ++ [UInt8.ofNat ((s.left <<< 2) ||| (dec >>> 4))], 2, dec &&& 15⟩
  | 2 => ⟨s.vchRet ++ [UInt8.ofNat ((s.left <<< 4) ||| (dec >>> 2))], 3, dec &&& 3⟩
  | 3 => { s with vchRet := s.vchRet ++ [UInt8.ofNat ((s.left <<< 6) ||| dec)], mode := 0 }
  | _ => s

/-- The switch after the loop of DecodeBase64: `*pfInvalid`. -/
def decode64Invalid (s : DecodeState) (p : Bytes) : Bool :=
  match s.mode with
  | 1 => true
  | 2 => s.left != 0 || paddingFails decode64Table 2 p
  | 3 => s.left != 0 || paddingFails decode64Table 1 p
  | _ => false

/-- The bytes and `*pfInvalid`. -/
def decodeBase64 (p : Bytes) : Bytes × Bool :=
  let (s, rest) := decodeLoop decode64Table decode64Step ⟨[], 0, 0⟩ p
  (s.vchRet, decode64Invalid s rest)

/-! ## Base32 -/

def pbase32 : Bytes := ascii "abcdefghijklmnopqrstuvwxyz234567"

def encode32Step (s : EncodeState) (byte : UInt8) : EncodeState :=
  let enc := byte.toNat
  match s.mode with
  | 0 => ⟨1, (enc &&& 7) <<< 2, s.strRet ++ [pbase32.getD (enc >>> 3) 0]⟩
  | 1 => ⟨2, (enc &&& 1) <<< 4,
      s.strRet ++ [pbase32.getD (s.left ||| (enc >>> 6)) 0] ++ [pbase32.getD ((enc >>> 1) &&& 31) 0]⟩
  | 2 => ⟨3, (enc &&& 15) <<< 1, s.strRet ++ [pbase32.getD (s.left ||| (enc >>> 4)) 0]⟩
  | 3 => ⟨4, (enc &&& 3) <<< 3,
      s.strRet ++ [pbase32.getD (s.left ||| (enc >>> 7)) 0] ++ [pbase32.getD ((enc >>> 2) &&& 31) 0]⟩
  | 4 => ⟨0, s.left, s.strRet ++ [pbase32.getD (s.left ||| (enc >>> 5)) 0] ++ [pbase32.getD (enc &&& 31) 0]⟩
  | _ => s

def nPadding : List Nat := [0, 6, 4, 3, 1]

def encodeBase32 (pch : Bytes) : Bytes :=
  let s := pch.foldl encode32Step ⟨0, 0, []⟩
  if s.mode ≠ 0 then
    s.strRet ++ [pbase32.getD s.left 0] ++ List.replicate (nPadding.getD s.mode 0) padChar
  else s.strRet

def decode32Table : List Int := [
  -1, -1, -1, -1, -1, -1, -1, -1, -1, -1, -1, -1, -1, -1, -1, -1, -1, -1, -1, -1,
  -1, -1, -1, -1, -1, -1, -1, -1, -1, -1, -1, -1, -1, -1, -1, -1, -1, -1, -1, -1,
  -1, -1, -1, -1, -1, -1, -1, -1, -1, -1, 26, 27, 28, 29, 30, 31, -1, -1, -1, -1,
  -1, -1, -1, -1, -1,  0,  1,  2,  3,  4,  5,  6,  7,  8,  9, 10, 11, 12, 13, 14,
  15, 16, 17, 18, 19, 20, 21, 22, 23, 24, 25, -1, -1, -1, -1, -1, -1,  0,  1,  2,
   3,  4,  5,  6,  7,  8,  9, 10, 11, 12, 13, 14, 15, 16, 17, 18, 19, 20, 21, 22,
  23, 24, 25, -1, -1, -1, -1, -1, -1, -1, -1, -1, -1, -1, -1, -1, -1, -1, -1, -1,
  -1, -1, -1, -1, -1, -1, -1, -1, -1, -1, -1, -1, -1, -1, -1, -1, -1, -1, -1, -1,
  -1, -1, -1, -1, -1, -1, -1, -1, -1, -1, -1, -1, -1, -1, -1, -1, -1, -1, -1, -1,
  -1, -1, -1, -1, -1, -1, -1, -1, -1, -1, -1, -1, -1, -1, -1, -1, -1, -1, -1, -1,
  -1, -1, -1, -1, -1, -1, -1, -1, -1, -1, -1, -1, -1, -1, -1, -1, -1, -1, -1, -1,
  -1, -1, -1, -1, -1, -1, -1, -1, -1, -1, -1, -1, -1, -1, -1, -1, -1, -1, -1, -1,
  -1, -1, -1, -1, -1, -1, -1, -1, -1, -1, -1, -1, -1, -1, -1, -1]

def decode32Step (s : DecodeState) (dec : Nat) : DecodeState :=
  match s.mode with
  | 0 => { s with left := dec, mode := 1 }
  | 1 => ⟨s.vchRet ++ [UInt8.ofNat ((s.left <<< 3) ||| (dec >>> 2))], 2, dec &&& 3⟩
  | 2 => { s with left := (s.left <<< 5) ||| dec, mode := 3 }
  | 3 => ⟨s.vchRet ++ [UInt8.ofNat ((s.left <<< 1) ||| (dec >>> 4))], 4, dec &&& 15⟩
  | 4 => ⟨s.vchRet ++ [UInt8.ofNat ((s.left <<< 4) ||| (dec >>> 1))], 5, dec &&& 1⟩
  | 5 => { s with left := (s.left <<< 5) ||| dec, mode := 6 }
  | 6 => ⟨s.vchRet ++ [UInt8.ofNat ((s.left <<< 2) ||| (dec >>> 3))], 7, dec &&& 7⟩
  | 7 => { s with vchRet := s.vchRet ++ [UInt8.ofNat ((s.left <<< 5) ||| dec)], mode := 0 }
  | _ => s

/-- The switch after the loop of DecodeBase32: `*pfInvalid`. -/
def decode32Invalid (s : DecodeState) (p : Bytes) : Bool :=
  match s.mode with
  | 1 | 3 | 6 => true
  | 2 => s.left != 0 || paddingFails decode32Table 6 p
  | 4 => s.left != 0 || paddingFails decode32Table 4 p
  | 5 => s.left != 0 || paddingFails decode32Table 3 p
  | 7 => s.left != 0 || paddingFails decode32Table 1 p
  | _ => false

def decodeBase32 (p : Bytes) : Bytes × Bool :=
  let (s, rest) := decodeLoop decode32Table decode32Step ⟨[], 0, 0⟩ p
  (s.vchRet, decode32Invalid s rest)

end BitCrystal
