import BitCrystal.Data.Tables
import BitCrystal.KeyPool

namespace BitCrystal

open Data

/-! # The encrypted key store -/

def WALLET_CRYPTO_KEY_SIZE : Nat := 32

/-- AES-256-CBC with a key and an initialization vector. -/
class Aes where
  encrypt : Bytes → Bytes → Bytes → Option Bytes
  decrypt : Bytes → Bytes → Bytes → Option Bytes

/-- The curve: the public key of a secret in the uncompressed or the compressed form, and which
public keys `o2i_ECPublicKey` reads. -/
class Curve where
  pubKey : Bytes → Bool → CPubKey
  isPoint : CPubKey → Bool

section

variable [Aes]

def encryptSecret (vMasterKey vchPlaintext : Bytes) (nIV : UInt256) : Option Bytes :=
  if vMasterKey.length ≠ WALLET_CRYPTO_KEY_SIZE then none
  else Aes.encrypt vMasterKey (littleEndian 32 nIV.toNat) vchPlaintext

def decryptSecret (vMasterKey vchCiphertext : Bytes) (nIV : UInt256) : Option Bytes :=
  if vMasterKey.length ≠ WALLET_CRYPTO_KEY_SIZE then none
  else Aes.decrypt vMasterKey (littleEndian 32 nIV.toNat) vchCiphertext

end

def CPubKey.getHash [ScriptDigests] (key : CPubKey) : UInt256 := ScriptDigests.Hash2 key.vchPubKey

structure CKey where
  vchSecret : Bytes
  fCompressedPubKey : Bool
deriving DecidableEq

namespace CKey

/-- `CKey()` -/
def null : CKey := ⟨[], false⟩

def setSecret (key : CKey) (vchSecret : Bytes) (fCompressed : Bool) : CKey :=
  ⟨vchSecret, fCompressed || key.fCompressedPubKey⟩

variable [Curve]

def getPubKey (key : CKey) : CPubKey := Curve.pubKey key.vchSecret key.fCompressedPubKey

/-- SetPubKey, for a key that gets its secret afterwards. -/
def setPubKey (key : CKey) (vchPubKey : CPubKey) : CKey :=
  if Curve.isPoint vchPubKey then
    { key with fCompressedPubKey := key.fCompressedPubKey || vchPubKey.vchPubKey.length = 33 }
  else null

end CKey

structure CCryptoKeyStore where
  mapKeys : Std.ExtTreeMap CKeyID (Bytes × Bool)
  mapCryptedKeys : Std.ExtTreeMap CKeyID (CPubKey × Bytes)
  vMasterKey : Bytes
  fUseCrypto : Bool

namespace CCryptoKeyStore

def empty : CCryptoKeyStore := ⟨∅, ∅, [], false⟩

def isLocked (s : CCryptoKeyStore) : Bool := s.fUseCrypto && s.vMasterKey.isEmpty

def setCrypted (s : CCryptoKeyStore) : CCryptoKeyStore × Bool :=
  if s.fUseCrypto then (s, true)
  else if !s.mapKeys.isEmpty then (s, false)
  else ({ s with fUseCrypto := true }, true)

def lock (s : CCryptoKeyStore) : CCryptoKeyStore × Bool :=
  match s.setCrypted with
  | (s, false) => (s, false)
  | (s, true) => ({ s with vMasterKey := [] }, true)

variable [Aes] [Curve] [ScriptDigests]

/-- Whether Unlock takes the master key for the first of the records. -/
def opens (vMasterKeyIn : Bytes) (record : CPubKey × Bytes) : Bool :=
  match decryptSecret vMasterKeyIn record.2 record.1.getHash with
  | none => false
  | some vchSecret =>
      vchSecret.length = 32 && ((CKey.null.setPubKey record.1).setSecret vchSecret false).getPubKey = record.1

def unlock (s : CCryptoKeyStore) (vMasterKeyIn : Bytes) : CCryptoKeyStore × Bool :=
  match s.setCrypted with
  | (s, false) => (s, false)
  | (s, true) =>
      match s.mapCryptedKeys.toList with
      | [] => ({ s with vMasterKey := vMasterKeyIn }, true)
      | (_, record) :: _ =>
          if opens vMasterKeyIn record then ({ s with vMasterKey := vMasterKeyIn }, true) else (s, false)

def addCryptedKey (s : CCryptoKeyStore) (vchPubKey : CPubKey) (vchCryptedSecret : Bytes) : CCryptoKeyStore × Bool :=
  match s.setCrypted with
  | (s, false) => (s, false)
  | (s, true) =>
      ({ s with mapCryptedKeys := s.mapCryptedKeys.insert vchPubKey.getID (vchPubKey, vchCryptedSecret) }, true)

def addKey (s : CCryptoKeyStore) (key : CKey) : CCryptoKeyStore × Bool :=
  if !s.fUseCrypto then
    ({ s with mapKeys := s.mapKeys.insert key.getPubKey.getID (key.vchSecret, key.fCompressedPubKey) }, true)
  else if s.isLocked then (s, false)
  else
    match encryptSecret s.vMasterKey key.vchSecret key.getPubKey.getHash with
    | none => (s, false)
    | some vchCryptedSecret => s.addCryptedKey key.getPubKey vchCryptedSecret

/-- GetKey into a key that is `CKey()`, as all callers give it. -/
def getKey (s : CCryptoKeyStore) (address : CKeyID) : Option CKey :=
  if !s.fUseCrypto then s.mapKeys[address]?.map fun secret => CKey.null.setSecret secret.1 secret.2
  else
    match s.mapCryptedKeys[address]? with
    | none => none
    | some (vchPubKey, vchCryptedSecret) =>
        match decryptSecret s.vMasterKey vchCryptedSecret vchPubKey.getHash with
        | none => none
        | some vchSecret =>
            if vchSecret.length ≠ 32 then none else some ((CKey.null.setPubKey vchPubKey).setSecret vchSecret false)

def getPubKey (s : CCryptoKeyStore) (address : CKeyID) : Option CPubKey :=
  if !s.fUseCrypto then (s.getKey address).map CKey.getPubKey else s.mapCryptedKeys[address]?.map Prod.fst

/-- The loop of EncryptKeys. -/
def encryptLoop (vMasterKeyIn : Bytes) : List (CKeyID × Bytes × Bool) → CCryptoKeyStore → CCryptoKeyStore × Bool
  | [], s => (s, true)
  | (_, vchSecret, fCompressed) :: rest, s =>
      let key := CKey.null.setSecret vchSecret fCompressed
      match encryptSecret vMasterKeyIn key.vchSecret key.getPubKey.getHash with
      | none => (s, false)
      | some vchCryptedSecret =>
          match s.addCryptedKey key.getPubKey vchCryptedSecret with
          | (s, false) => (s, false)
          | (s, true) => encryptLoop vMasterKeyIn rest s

def encryptKeys (s : CCryptoKeyStore) (vMasterKeyIn : Bytes) : CCryptoKeyStore × Bool :=
  if !s.mapCryptedKeys.isEmpty || s.fUseCrypto then (s, false)
  else
    match encryptLoop vMasterKeyIn s.mapKeys.toList { s with fUseCrypto := true } with
    | (s, false) => (s, false)
    | (s, true) => ({ s with mapKeys := ∅ }, true)

end CCryptoKeyStore

end BitCrystal
