import BitCrystal.Keystore

namespace BitCrystal

open Data

/-! # The passphrase operations of the wallet -/

def WALLET_CRYPTO_SALT_SIZE : Nat := 8

/-- `EVP_BytesToKey` for AES-256-CBC and SHA-512, from a passphrase, a salt and a number of rounds; it
gives no key where it returns another size than that of a key. -/
class KeyDerivation where
  bytesToKey : Bytes → Bytes → UInt32 → Option (Bytes × Bytes)

structure CMasterKey where
  vchCryptedKey : Bytes
  vchSalt : Bytes
  nDerivationMethod : UInt32
  nDeriveIterations : UInt32
deriving DecidableEq

/-- The number of rounds that is kept for `measured`. -/
def atLeast25000 (measured : UInt32) : UInt32 := if measured < 25000 then 25000 else measured

namespace CMasterKey

/-- SetKeyFromPassphrase with the parameters of a record. -/
def deriveKey [KeyDerivation] (record : CMasterKey) (strKeyData : Bytes) : Option (Bytes × Bytes) :=
  if record.nDeriveIterations < 1 ∨ record.vchSalt.length ≠ WALLET_CRYPTO_SALT_SIZE then none
  else if record.nDerivationMethod = 0 then
    KeyDerivation.bytesToKey strKeyData record.vchSalt record.nDeriveIterations
  else none

variable [Aes] [KeyDerivation]

/-- What a passphrase decrypts from a record; `none` where SetKeyFromPassphrase or Decrypt fails. -/
def masterKey (record : CMasterKey) (strPassphrase : Bytes) : Option Bytes :=
  match record.deriveKey strPassphrase with
  | none => none
  | some (chKey, chIV) => Aes.decrypt chKey chIV record.vchCryptedKey

/-- The passphrase opens the record: what it decrypts unlocks the key store. -/
def opens [Curve] [ScriptDigests] (record : CMasterKey) (keystore : CCryptoKeyStore) (strPassphrase : Bytes) :
    Bool :=
  (record.masterKey strPassphrase).any fun vMasterKey => (keystore.unlock vMasterKey).2

end CMasterKey

/-- The parts of CWallet that its passphrases are about. -/
structure CryptedWallet where
  keystore : CCryptoKeyStore
  mapMasterKeys : Std.ExtTreeMap Nat CMasterKey
  nMasterKeyMaxID : Nat
  fFileBacked : Bool
  /-- `pwalletdbEncryption` is not null. -/
  pwalletdbEncryption : Bool
  id_le : ∀ (id : Nat) (record : CMasterKey), mapMasterKeys[id]? = some record → id ≤ nMasterKeyMaxID

/-- The random bytes, the measured number of rounds and the answers of the wallet file for one
EncryptWallet, and what NewKeyPool does to the key store. -/
structure EncryptionAnswers where
  vMasterKey : Vector UInt8 32
  vchSalt : Vector UInt8 8
  measured : UInt32
  fTxnBegin : Bool
  fTxnCommit : Bool
  newKeyPool : CCryptoKeyStore → CCryptoKeyStore

namespace CryptedWallet

def isLocked (w : CryptedWallet) : Bool := w.keystore.isLocked

def lock (w : CryptedWallet) : CryptedWallet := { w with keystore := w.keystore.lock.1 }

/-- `pMasterKey.second = record`, for a record that is in `mapMasterKeys`. -/
def setMasterKey (w : CryptedWallet) (id : Nat) (record : CMasterKey) : CryptedWallet :=
  if known : id ≤ w.nMasterKeyMaxID then
    { w with
      mapMasterKeys := w.mapMasterKeys.insert id record
      id_le := by
        intro other found at'
        rw [lookup_insert] at at'
        split at at'
        · rename_i same
          exact same ▸ known
        · exact w.id_le other found at' }
  else w

/-- `mapMasterKeys[++nMasterKeyMaxID] = record` -/
def addMasterKey (w : CryptedWallet) (record : CMasterKey) : CryptedWallet :=
  { w with
    nMasterKeyMaxID := w.nMasterKeyMaxID + 1
    mapMasterKeys := w.mapMasterKeys.insert (w.nMasterKeyMaxID + 1) record
    id_le := by
      intro other found at'
      rw [lookup_insert] at at'
      split at at'
      · omega
      · exact Nat.le_succ_of_le (w.id_le other found at') }

variable [Aes] [Curve] [ScriptDigests] [KeyDerivation]

/-- The loop of Unlock over the master key records. -/
def unlockLoop (strWalletPassphrase : Bytes) : List (Nat × CMasterKey) → CryptedWallet → CryptedWallet × Bool
  | [], w => (w, false)
  | (_, record) :: rest, w =>
      match record.masterKey strWalletPassphrase with
      | none => (w, false)
      | some vMasterKey =>
          match w.keystore.unlock vMasterKey with
          | (keystore, true) => ({ w with keystore }, true)
          | (keystore, false) => unlockLoop strWalletPassphrase rest { w with keystore }

def unlock (w : CryptedWallet) (strWalletPassphrase : Bytes) : CryptedWallet × Bool :=
  if !w.isLocked then (w, false) else unlockLoop strWalletPassphrase w.mapMasterKeys.toList w

/-- What ChangeWalletPassphrase does with the record that the old passphrase has opened. -/
def changeRecord (w : CryptedWallet) (id : Nat) (record : CMasterKey) (vMasterKey strNewWalletPassphrase : Bytes)
    (measured : UInt32) (fWasLocked : Bool) : CryptedWallet × Bool :=
  let record := { record with nDeriveIterations := atLeast25000 measured }
  match record.deriveKey strNewWalletPassphrase with
  | none => (w.setMasterKey id record, false)
  | some (chKey, chIV) =>
      match Aes.encrypt chKey chIV vMasterKey with
      | none =>
          -- Encrypt has already made room for the ciphertext
          (w.setMasterKey id { record with vchCryptedKey := List.replicate (vMasterKey.length + 16) 0 }, false)
      | some vchCryptedKey =>
          let w := w.setMasterKey id { record with vchCryptedKey }
          (if fWasLocked then w.lock else w, true)

/-- The loop of ChangeWalletPassphrase over the master key records. -/
def changeLoop (strOldWalletPassphrase strNewWalletPassphrase : Bytes) (measured : UInt32) (fWasLocked : Bool) :
    List (Nat × CMasterKey) → CryptedWallet → CryptedWallet × Bool
  | [], w => (w, false)
  | (id, record) :: rest, w =>
      match record.masterKey strOldWalletPassphrase with
      | none => (w, false)
      | some vMasterKey =>
          match w.keystore.unlock vMasterKey with
          | (keystore, true) =>
              changeRecord { w with keystore } id record vMasterKey strNewWalletPassphrase measured fWasLocked
          | (keystore, false) =>
              changeLoop strOldWalletPassphrase strNewWalletPassphrase measured fWasLocked rest { w with keystore }

/-- ChangeWalletPassphrase; `measured` is the number of rounds that the clock makes of the old one. -/
def changeWalletPassphrase (w : CryptedWallet) (strOldWalletPassphrase strNewWalletPassphrase : Bytes)
    (measured : UInt32) : CryptedWallet × Bool :=
  changeLoop strOldWalletPassphrase strNewWalletPassphrase measured w.isLocked w.mapMasterKeys.toList w.lock

/-- EncryptWallet after it has got its new record; `none` stands for `exit(1)`. -/
def encryptWith (w : CryptedWallet) (strWalletPassphrase : Bytes) (answers : EncryptionAnswers)
    (record : CMasterKey) : Option (CryptedWallet × Bool) :=
  let w := w.addMasterKey record
  let w := { w with pwalletdbEncryption := w.fFileBacked || w.pwalletdbEncryption }
  if w.fFileBacked && !answers.fTxnBegin then some (w, false)
  else
    match w.keystore.encryptKeys answers.vMasterKey.toList with
    | (_, false) => none
    | (keystore, true) =>
        if w.fFileBacked && !answers.fTxnCommit then none
        else
          let w := { w with keystore, pwalletdbEncryption := !w.fFileBacked && w.pwalletdbEncryption }
          let w := (w.lock.unlock strWalletPassphrase).1
          some ({ w with keystore := answers.newKeyPool w.keystore }.lock, true)

def encryptWallet (w : CryptedWallet) (strWalletPassphrase : Bytes) (answers : EncryptionAnswers) :
    Option (CryptedWallet × Bool) :=
  if w.keystore.fUseCrypto then some (w, false)
  else
    let record : CMasterKey := ⟨[], answers.vchSalt.toList, 0, atLeast25000 answers.measured⟩
    match record.deriveKey strWalletPassphrase with
    | none => some (w, false)
    | some (chKey, chIV) =>
        match Aes.encrypt chKey chIV answers.vMasterKey.toList with
        | none => some (w, false)
        | some vchCryptedKey => w.encryptWith strWalletPassphrase answers { record with vchCryptedKey }

end CryptedWallet

end BitCrystal
