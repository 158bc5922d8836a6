import BitCrystal.Interpreter
import Mathlib.Data.Finset.Max
import Mathlib.Data.Set.Insert
import Std.Data.ExtTreeMap

namespace BitCrystal

open Data

/-! # The key pool of the wallet -/

abbrev CKeyID := BitVec 160

instance transOrd_keyID : Std.TransOrd CKeyID := inferInstance

instance lawfulBEq_keyID : LawfulBEq CKeyID := inferInstance

structure CPubKey where
  vchPubKey : Bytes
deriving DecidableEq

namespace CPubKey

/-- `CPubKey()` -/
def empty : CPubKey := ⟨[]⟩

def isValid (key : CPubKey) : Bool := key.vchPubKey.length = 33 ∨ key.vchPubKey.length = 65

def getID [ScriptDigests] (key : CPubKey) : CKeyID := ScriptDigests.Hash160 key.vchPubKey

end CPubKey

/-- A pool record, without its time. -/
structure CKeyPool where
  vchPubKey : CPubKey
deriving DecidableEq

/-- What the key generator, the key store and the wallet file answer for one new key. -/
structure KeyAnswers where
  /-- `EC_KEY_generate_key` in MakeNewKey -/
  fGenerated : Bool
  key : CPubKey
  /-- CCryptoKeyStore::AddKey -/
  fStored : Bool
  /-- WriteKey, which CWallet::AddKey calls afterwards -/
  fKeyWritten : Bool
  /-- WritePool, where the key is for the pool -/
  fPoolWritten : Bool

/-- GenerateNewKey returns. -/
def KeyAnswers.made (answers : KeyAnswers) : Bool :=
  answers.fGenerated && answers.fStored && answers.fKeyWritten

/-- The parts of CWallet that the key pool is made of; `pool` has the pool records of the
wallet file and `nGenerated` counts the calls of MakeNewKey. -/
structure CWallet where
  setKeyPool : Finset Int
  pool : Std.ExtTreeMap Int CKeyPool
  mapKeys : List CKeyID
  vchDefaultKey : CPubKey
  fLocked : Bool
  fFileBacked : Bool
  nGenerated : Nat

/-- A reserve key of one user; `nIndex` is -1 where nothing is reserved. -/
structure CReserveKey where
  nIndex : Int
  vchPubKey : CPubKey
deriving DecidableEq

def CReserveKey.null : CReserveKey := ⟨-1, .empty⟩

/-- The option -keypool and the answers for every new key. -/
structure KeySource where
  nKeypool : Int
  generated : Nat → KeyAnswers

namespace KeySource

/-- `nTargetSize` of TopUpKeyPool, which is an `unsigned int` -/
def nTargetSize (source : KeySource) : UInt32 := .ofNat (max source.nKeypool 0).toNat

/-- `nKeys` of NewKeyPool -/
def nKeys (source : KeySource) : Nat := (max source.nKeypool 0).toNat

end KeySource

namespace CWallet

variable [ScriptDigests] (source : KeySource)

def generateNewKey (wallet : CWallet) : CWallet × Except String CPubKey :=
  let answers := source.generated wallet.nGenerated
  let next := { wallet with nGenerated := wallet.nGenerated + 1 }
  let stored := { next with mapKeys := answers.key.getID :: next.mapKeys }
  if answers.fGenerated then
    if answers.fStored then
      if answers.fKeyWritten then (stored, .ok answers.key)
      else (stored, .error "CWallet::GenerateNewKey() : AddKey failed")
    else (next, .error "CWallet::GenerateNewKey() : AddKey failed")
  else (next, .error "CKey::MakeNewKey() : EC_KEY_generate_key failed")

/-- `walletdb.WritePool(nIndex, CKeyPool(GenerateNewKey()))` -/
def writeNewKey (wallet : CWallet) (nIndex : Int) : CWallet × Except String Bool :=
  match wallet.generateNewKey source with
  | (next, .error what) => (next, .error what)
  | (next, .ok key) =>
      if (source.generated wallet.nGenerated).fPoolWritten then
        ({ next with pool := next.pool.insert nIndex ⟨key⟩ }, .ok true)
      else (next, .ok false)

/-- `setKeyPool.insert(nIndex)` -/
def insertIndex (wallet : CWallet) (nIndex : Int) : CWallet :=
  { wallet with setKeyPool := insert nIndex wallet.setKeyPool }

/-- `walletdb.ErasePool(nIndex)` -/
def erasePool (wallet : CWallet) (nIndex : Int) : CWallet :=
  { wallet with pool := wallet.pool.erase nIndex }

/-- The loop of NewKeyPool, which writes `left` keys from `nIndex` on. -/
def writeNewKeys : Nat → Int → CWallet → CWallet × Except String Unit
  | 0, _, wallet => (wallet, .ok ())
  | left + 1, nIndex, wallet =>
      match wallet.writeNewKey source nIndex with
      | (next, .error what) => (next, .error what)
      | (next, .ok _) => writeNewKeys left (nIndex + 1) (next.insertIndex nIndex)

/-- The wallet after NewKeyPool forgot the old keys. -/
def clearKeyPool (wallet : CWallet) : CWallet :=
  { wallet with
    setKeyPool := ∅
    pool := wallet.pool.filter fun nIndex _ => nIndex ∉ wallet.setKeyPool }

def newKeyPool (wallet : CWallet) : CWallet × Except String Bool :=
  let cleared := wallet.clearKeyPool
  if wallet.fLocked then (cleared, .ok false)
  else
    match cleared.writeNewKeys source source.nKeys 1 with
    | (next, .error what) => (next, .error what)
    | (next, .ok ()) => (next, .ok true)

/-- `nEnd` of TopUpKeyPool -/
def nEnd (wallet : CWallet) : Int :=
  if nonempty : wallet.setKeyPool.Nonempty then wallet.setKeyPool.max' nonempty + 1 else 1

/-- The loop of TopUpKeyPool, for at most so many turns. -/
def topUpLoop : Nat → CWallet → CWallet × Except String Unit
  | 0, wallet => (wallet, .ok ())
  | turns + 1, wallet =>
      if wallet.setKeyPool.card < (source.nTargetSize + 1).toNat then
        match wallet.writeNewKey source wallet.nEnd with
        | (next, .error what) => (next, .error what)
        | (next, .ok false) => (next, .error "TopUpKeyPool() : writing generated key failed")
        | (next, .ok true) => topUpLoop turns (next.insertIndex wallet.nEnd)
      else (wallet, .ok ())

def missing (wallet : CWallet) : Nat := (source.nTargetSize + 1).toNat - wallet.setKeyPool.card

def topUpKeyPool (wallet : CWallet) : CWallet × Except String Bool :=
  if wallet.fLocked then (wallet, .ok false)
  else
    match wallet.topUpLoop source (wallet.missing source) with
    | (next, .error what) => (next, .error what)
    | (next, .ok ()) => (next, .ok true)

/-- What ReserveKeyFromKeyPool leaves: `nIndex` is assigned also where it throws afterwards. -/
structure Reservation where
  wallet : CWallet
  nIndex : Int
  result : Except String CKeyPool

/-- ReserveKeyFromKeyPool from where the pool is topped up. -/
def takeOldest (wallet : CWallet) : Reservation :=
  if nonempty : wallet.setKeyPool.Nonempty then
    let nIndex := wallet.setKeyPool.min' nonempty
    let next := { wallet with setKeyPool := wallet.setKeyPool.erase nIndex }
    match next.pool[nIndex]? with
    | none => ⟨next, nIndex, .error "ReserveKeyFromKeyPool() : read failed"⟩
    | some keypool =>
        if keypool.vchPubKey.getID ∉ next.mapKeys then
          ⟨next, nIndex, .error "ReserveKeyFromKeyPool() : unknown key in key pool"⟩
        else if keypool.vchPubKey.isValid then ⟨next, nIndex, .ok keypool⟩
        else ⟨next, nIndex, .error "assert(keypool.vchPubKey.IsValid())"⟩
  else ⟨wallet, -1, .ok ⟨.empty⟩⟩

def reserveKeyFromKeyPool (wallet : CWallet) : Reservation :=
  if wallet.fLocked then wallet.takeOldest
  else
    match wallet.topUpKeyPool source with
    | (next, .error what) => ⟨next, -1, .error what⟩
    | (next, .ok _) => next.takeOldest

def keepKey (wallet : CWallet) (nIndex : Int) : CWallet :=
  if wallet.fFileBacked then wallet.erasePool nIndex else wallet

def returnKey (wallet : CWallet) (nIndex : Int) : CWallet :=
  wallet.insertIndex nIndex

/-- GetKeyFromPool; the answer tells a key that is handed out as new from the default key. -/
def getKeyFromPool (wallet : CWallet) (fAllowReuse : Bool) :
    CWallet × Except String (Option (CPubKey × Bool)) :=
  let reservation := wallet.reserveKeyFromKeyPool source
  match reservation.result with
  | .error what => (reservation.wallet, .error what)
  | .ok keypool =>
      if reservation.nIndex = -1 then
        if fAllowReuse && reservation.wallet.vchDefaultKey.isValid then
          (reservation.wallet, .ok (some (reservation.wallet.vchDefaultKey, false)))
        else if reservation.wallet.fLocked then (reservation.wallet, .ok none)
        else
          match reservation.wallet.generateNewKey source with
          | (next, .error what) => (next, .error what)
          | (next, .ok key) => (next, .ok (some (key, true)))
      else (reservation.wallet.keepKey reservation.nIndex, .ok (some (keypool.vchPubKey, true)))

/-- The wallet after GetOldestKeyPoolTime, which reserves a key and returns it. -/
def getOldestKeyPoolTime (wallet : CWallet) : CWallet :=
  let reservation := wallet.reserveKeyFromKeyPool source
  match reservation.result with
  | .error _ => reservation.wallet
  | .ok _ =>
      if reservation.nIndex = -1 then reservation.wallet
      else reservation.wallet.returnKey reservation.nIndex

end CWallet

namespace CReserveKey

variable [ScriptDigests] (source : KeySource)

/-- GetReservedKey; the default key is handed out where the pool is empty. -/
def getReservedKey (reserve : CReserveKey) (wallet : CWallet) :
    CWallet × CReserveKey × Except String (Option CPubKey) :=
  if reserve.nIndex = -1 then
    let reservation := wallet.reserveKeyFromKeyPool source
    match reservation.result with
    | .error what => (reservation.wallet, { reserve with nIndex := reservation.nIndex }, .error what)
    | .ok keypool =>
        if reservation.nIndex ≠ -1 then
          (reservation.wallet, ⟨reservation.nIndex, keypool.vchPubKey⟩, .ok (some keypool.vchPubKey))
        else if reservation.wallet.vchDefaultKey.isValid then
          (reservation.wallet, ⟨-1, reservation.wallet.vchDefaultKey⟩,
            .ok (some reservation.wallet.vchDefaultKey))
        else (reservation.wallet, reserve, .ok none)
  else if reserve.vchPubKey.isValid then (wallet, reserve, .ok (some reserve.vchPubKey))
  else (wallet, reserve, .error "assert(vchPubKey.IsValid())")

def keepKey (reserve : CReserveKey) (wallet : CWallet) : CWallet × CReserveKey :=
  if reserve.nIndex ≠ -1 then (wallet.keepKey reserve.nIndex, .null) else (wallet, .null)

/-- ReturnKey, which is also the destructor. -/
def returnKey (reserve : CReserveKey) (wallet : CWallet) : CWallet × CReserveKey :=
  if reserve.nIndex ≠ -1 then (wallet.returnKey reserve.nIndex, .null) else (wallet, .null)

end CReserveKey

end BitCrystal
