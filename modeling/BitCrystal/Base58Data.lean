import BitCrystal.Base58
import BitCrystal.Data.Decoding
import BitCrystal.Ownership

namespace BitCrystal

open Data

variable [Hashing]

/-! # Base58 data with a version and a checksum -/

def checksum (vch : Bytes) : Bytes := (littleEndian 32 (Hashing.Hash vch).toNat).take 4

def encodeBase58Check (vchIn : Bytes) : Bytes := encodeBase58 (vchIn ++ checksum vchIn)

/-- `none` is the answer false, with `vchRet` cleared. -/
def decodeBase58Check (str : Bytes) : Option Bytes :=
  match decodeBase58 str with
  | none => none
  | some vchRet =>
      if vchRet.length < 4 then none
      else
        let data := vchRet.take (vchRet.length - 4)
        if checksum data ≠ vchRet.drop (vchRet.length - 4) then none else some data

structure CBase58Data where
  nVersion : UInt8
  vchData : Bytes
deriving DecidableEq

namespace CBase58Data

def setData (nVersionIn : UInt8) (pdata : Bytes) : CBase58Data := ⟨nVersionIn, pdata⟩

/-- What SetString leaves behind, and its answer. -/
def setString (str : Bytes) : CBase58Data × Bool :=
  match (decodeBase58Check str).getD [] with
  | [] => (⟨0, []⟩, false)
  | nVersion :: vchData => (⟨nVersion, vchData⟩, true)

def toString (data : CBase58Data) : Bytes := encodeBase58Check (data.nVersion :: data.vchData)

end CBase58Data

namespace CBitcoinAddress

def PUBKEY_ADDRESS : UInt8 := 0
def SCRIPT_ADDRESS : UInt8 := 9
def PUBKEY_ADDRESS_TEST : UInt8 := 111
def SCRIPT_ADDRESS_TEST : UInt8 := 199

/-- `CBitcoinAddress(dest)`: Set leaves the new address as it is for CNoDestination. -/
def ofDestination (fTestNet : Bool) : CTxDestination → CBase58Data
  | .CKeyID id => .setData (if fTestNet then PUBKEY_ADDRESS_TEST else PUBKEY_ADDRESS) (littleEndian 20 id.toNat)
  | .CScriptID id => .setData (if fTestNet then SCRIPT_ADDRESS_TEST else SCRIPT_ADDRESS) (littleEndian 20 id.toNat)
  | .CNoDestination => ⟨0, []⟩

def isValid (fTestNet : Bool) (addr : CBase58Data) : Bool :=
  if addr.nVersion = PUBKEY_ADDRESS ∨ addr.nVersion = SCRIPT_ADDRESS then
    fTestNet = false && addr.vchData.length = 20
  else if addr.nVersion = PUBKEY_ADDRESS_TEST ∨ addr.nVersion = SCRIPT_ADDRESS_TEST then
    fTestNet = true && addr.vchData.length = 20
  else false

def get (fTestNet : Bool) (addr : CBase58Data) : CTxDestination :=
  if ¬ isValid fTestNet addr then .CNoDestination
  else if addr.nVersion = PUBKEY_ADDRESS ∨ addr.nVersion = PUBKEY_ADDRESS_TEST then
    .CKeyID (BitVec.ofNat 160 (ofLittleEndian (addr.vchData.take 20)))
  else if addr.nVersion = SCRIPT_ADDRESS ∨ addr.nVersion = SCRIPT_ADDRESS_TEST then
    .CScriptID (BitVec.ofNat 160 (ofLittleEndian (addr.vchData.take 20)))
  else .CNoDestination

end CBitcoinAddress

namespace CBitcoinSecret

def setSecret (fTestNet : Bool) (vchSecret : Bytes) (fCompressed : Bool) : Except Failure CBase58Data :=
  if vchSecret.length = 32 then
    let data := CBase58Data.setData (if fTestNet then 239 else 128) vchSecret
    .ok (if fCompressed then { data with vchData := data.vchData ++ [1] } else data)
  else .error (.undefined "vchSecret.size() == 32")

/-- GetSecret: the secret and `fCompressedOut`. -/
def getSecret (secret : CBase58Data) : Bytes × Bool :=
  (secret.vchData.take 32, secret.vchData.length = 33)

def isValid (fTestNet : Bool) (secret : CBase58Data) : Bool :=
  let sizes := secret.vchData.length = 32 || secret.vchData.length = 33 && secret.vchData.getD 32 0 = 1
  if secret.nVersion = 128 then fTestNet = false && sizes
  else if secret.nVersion = 239 then fTestNet = true && sizes
  else false

def setString (fTestNet : Bool) (strSecret : Bytes) : CBase58Data × Bool :=
  let (data, good) := CBase58Data.setString strSecret
  (data, good && isValid fTestNet data)

end CBitcoinSecret

/-! ## Round trips -/

theorem checksum_length (vch : Bytes) : (checksum vch).length = 4 := by
  rw [checksum, List.length_take, littleEndian_length]
  rfl

theorem decodeBase58Check_encodeBase58Check (vchIn : Bytes) :
    decodeBase58Check (encodeBase58Check vchIn) = some vchIn := by
  have length : (vchIn ++ checksum vchIn).length - 4 = vchIn.length := by
    rw [List.length_append, checksum_length, Nat.add_sub_cancel]
  have long : ¬(vchIn ++ checksum vchIn).length < 4 := by
    rw [List.length_append, checksum_length]
    omega
  rw [decodeBase58Check, encodeBase58Check, decodeBase58_encodeBase58]
  simp only [if_neg long, length, List.take_left', List.drop_left', ne_eq, not_true_eq_false, if_false]

theorem setString_toString (data : CBase58Data) : CBase58Data.setString data.toString = (data, true) := by
  rw [CBase58Data.setString, CBase58Data.toString, decodeBase58Check_encodeBase58Check]
  rfl

omit [Hashing] in
theorem hash160_bytes (id : BitVec 160) :
    BitVec.ofNat 160 (ofLittleEndian ((littleEndian 20 id.toNat).take 20)) = id := by
  have fits : id.toNat < 256 ^ 20 := id.isLt
  rw [List.take_of_length_le (by rw [littleEndian_length]), ofLittleEndian_littleEndian_of_lt fits]
  exact BitVec.eq_of_toNat_eq (by rw [BitVec.toNat_ofNat, Nat.mod_eq_of_lt id.isLt])

omit [Hashing] in
theorem get_ofDestination (fTestNet : Bool) (dest : CTxDestination) :
    CBitcoinAddress.get fTestNet (CBitcoinAddress.ofDestination fTestNet dest) = dest := by
  cases dest with
  | CNoDestination => cases fTestNet <;> rfl
  | CKeyID id =>
      have bytes := hash160_bytes id
      cases fTestNet <;>
        simp [CBitcoinAddress.ofDestination, CBitcoinAddress.get, CBitcoinAddress.isValid, CBase58Data.setData, bytes,
          CBitcoinAddress.PUBKEY_ADDRESS, CBitcoinAddress.PUBKEY_ADDRESS_TEST, CBitcoinAddress.SCRIPT_ADDRESS,
          CBitcoinAddress.SCRIPT_ADDRESS_TEST]
  | CScriptID id =>
      have bytes := hash160_bytes id
      cases fTestNet <;>
        simp [CBitcoinAddress.ofDestination, CBitcoinAddress.get, CBitcoinAddress.isValid, CBase58Data.setData, bytes,
          CBitcoinAddress.PUBKEY_ADDRESS, CBitcoinAddress.PUBKEY_ADDRESS_TEST, CBitcoinAddress.SCRIPT_ADDRESS,
          CBitcoinAddress.SCRIPT_ADDRESS_TEST]

theorem setString_setSecret {fTestNet fCompressed : Bool} {vchSecret : Bytes} {secret : CBase58Data}
    (set : CBitcoinSecret.setSecret fTestNet vchSecret fCompressed = .ok secret) :
    CBitcoinSecret.setString fTestNet secret.toString = (secret, true) ∧
      CBitcoinSecret.getSecret secret = (vchSecret, fCompressed) := by
  rw [CBitcoinSecret.setSecret] at set
  split at set
  case isFalse => cases set
  case isTrue length =>
    have whole : vchSecret.take 32 = vchSecret := List.take_of_length_le (by rw [length])
    have front : (vchSecret ++ [1]).take 32 = vchSecret := List.take_left' length
    cases set
    rw [CBitcoinSecret.setString, setString_toString]
    cases fTestNet <;> cases fCompressed <;>
      simp [CBitcoinSecret.isValid, CBitcoinSecret.getSecret, CBase58Data.setData, length, whole, front]

omit [Hashing] in
theorem setSecret_ok (fTestNet fCompressed : Bool) {vchSecret : Bytes} (length : vchSecret.length = 32) :
    ∃ secret, CBitcoinSecret.setSecret fTestNet vchSecret fCompressed = .ok secret := by
  rw [CBitcoinSecret.setSecret, if_pos length]
  exact ⟨_, rfl⟩

/-- Bytes, strings of the alphabet, versioned data, addresses and secret keys come back. What is
decoded is an encoding between spaces, up to the first terminator. -/
theorem base58_round_trips :
    (∀ v, decodeBase58 (encodeBase58 v) = some v) ∧
      (∀ s, (∀ c ∈ s, c ∈ pszBase58) → ∃ v, decodeBase58 s = some v ∧ encodeBase58 v = s) ∧
      (∀ s v, decodeBase58 s = some v ↔ ∃ before after, cStr s = before ++ encodeBase58 v ++ after ∧
        ∀ c ∈ before ++ after, isspace c = true) ∧
      (∀ v, ∀ c ∈ encodeBase58 v, c ∈ pszBase58) ∧
      (∀ data : CBase58Data, CBase58Data.setString data.toString = (data, true)) ∧
      (∀ fTestNet dest, CBitcoinAddress.get fTestNet
        (CBase58Data.setString (CBitcoinAddress.ofDestination fTestNet dest).toString).1 = dest) ∧
      ∀ (fTestNet fCompressed : Bool) (vchSecret : Bytes), vchSecret.length = 32 →
        ∃ secret, CBitcoinSecret.setSecret fTestNet vchSecret fCompressed = .ok secret ∧
          CBitcoinSecret.setString fTestNet secret.toString = (secret, true) ∧
          CBitcoinSecret.getSecret secret = (vchSecret, fCompressed) := by
  refine ⟨decodeBase58_encodeBase58, fun s each => exists_decodeBase58 each, decodeBase58_iff, encodeBase58_mem,
    setString_toString, fun fTestNet dest => ?_, fun fTestNet fCompressed vchSecret length => ?_⟩
  · rw [setString_toString]
    exact get_ofDestination fTestNet dest
  · obtain ⟨secret, set⟩ := setSecret_ok fTestNet fCompressed length
    exact ⟨secret, set, setString_setSecret set⟩

omit [Hashing] in
/-- The string `z`, and the secret key of 32 ones. -/
theorem base58_round_trips_samples :
    (∃ v, decodeBase58 [0x7a] = some v ∧ encodeBase58 v = [0x7a]) ∧
      ∃ secret, CBitcoinSecret.setSecret false (List.replicate 32 1) true = .ok secret ∧
        @CBitcoinSecret.setString Sample.hashing false (@CBase58Data.toString Sample.hashing secret) = (secret, true) ∧
        CBitcoinSecret.getSecret secret = (List.replicate 32 1, true) := by
  obtain ⟨-, alphabet, -, -, -, -, secrets⟩ := @base58_round_trips Sample.hashing
  exact ⟨alphabet [0x7a] (by decide +kernel), secrets false true (List.replicate 32 1) rfl⟩

omit [Hashing] in
/-- A string with a character that is neither of the alphabet nor a space. -/
theorem base58_round_trips_terminator :
    decodeBase58 (ascii "1\x00!") = some [0] ∧
      ¬∃ before text after, ascii "1\x00!" = before ++ text ++ after ∧ (∀ c ∈ text, c ∈ pszBase58) ∧
        ∀ c ∈ before ++ after, isspace c = true := by
  refine ⟨by decide, ?_⟩
  rintro ⟨before, text, after, split, alphabet, spaces⟩
  have found : 0x21 ∈ before ++ text ++ after := by
    rw [← split]
    decide
  have neither : 0x21 ∉ pszBase58 ∧ isspace 0x21 = false := by decide
  rcases List.mem_append.mp found with front | back
  · rcases List.mem_append.mp front with leading | inside
    · have space := spaces 0x21 (List.mem_append_left after leading)
      rw [neither.2] at space
      exact Bool.false_ne_true space
    · exact neither.1 (alphabet 0x21 inside)
  · have space := spaces 0x21 (List.mem_append_right before back)
    rw [neither.2] at space
    exact Bool.false_ne_true space

end BitCrystal
