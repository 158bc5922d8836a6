import BitCrystal.KeystoreRuns
import BitCrystal.MasterKeys

namespace BitCrystal

open Data

/-! # When the passphrase operations are all-or-nothing -/

section

variable [Aes] [Curve] [ScriptDigests] [KeyDerivation]

/-! ## The key store under the master key records -/

namespace CCryptoKeyStore

variable {s : CCryptoKeyStore} {vMasterKeyIn : Bytes}

/-- The master key fits the first record, where there is one. -/
def accepts (s : CCryptoKeyStore) (vMasterKeyIn : Bytes) : Bool :=
  s.mapCryptedKeys.toList.head?.all fun entry => opens vMasterKeyIn entry.2

omit [KeyDerivation] in
theorem unlock_of_crypted (crypted : s.fUseCrypto = true) :
    s.unlock vMasterKeyIn =
      if s.accepts vMasterKeyIn then ({ s with vMasterKey := vMasterKeyIn }, true) else (s, false) := by
  unfold unlock accepts
  rw [setCrypted_of_crypted crypted]
  dsimp only
  cases s.mapCryptedKeys.toList with
  | nil => rfl
  | cons entry rest => rfl

omit [KeyDerivation] in
theorem unlock_answer (crypted : s.fUseCrypto = true) : (s.unlock vMasterKeyIn).2 = s.accepts vMasterKeyIn := by
  rw [unlock_of_crypted crypted]
  cases s.accepts vMasterKeyIn <;> rfl

end CCryptoKeyStore

namespace CMasterKey

variable {keystore other : CCryptoKeyStore} {strPassphrase : Bytes} {record : CMasterKey}

theorem opens_congr (crypted : keystore.fUseCrypto = true) (also : other.fUseCrypto = true)
    (records : other.mapCryptedKeys = keystore.mapCryptedKeys) :
    record.opens other strPassphrase = record.opens keystore strPassphrase := by
  unfold opens
  congr 1
  funext vMasterKey
  rw [CCryptoKeyStore.unlock_answer crypted, CCryptoKeyStore.unlock_answer also, CCryptoKeyStore.accepts, records]
  rfl

theorem opens_iff : record.opens keystore strPassphrase = true ↔
    ∃ vMasterKey, record.masterKey strPassphrase = some vMasterKey ∧ (keystore.unlock vMasterKey).2 = true := by
  simp [opens, Option.any_eq_true_iff_get, Option.eq_some_iff_get_eq]

end CMasterKey

namespace CryptedWallet

/-! ## The records before the first that opens -/

/-- The records that the loops go through before the first that the passphrase opens. -/
def passedOver (keystore : CCryptoKeyStore) (strPassphrase : Bytes) (records : List (Nat × CMasterKey)) :
    List (Nat × CMasterKey) :=
  records.takeWhile fun entry => !entry.2.opens keystore strPassphrase

/-- None of them stops the loop. -/
def Reaches (keystore : CCryptoKeyStore) (strPassphrase : Bytes) (records : List (Nat × CMasterKey)) : Prop :=
  ∀ entry ∈ passedOver keystore strPassphrase records, (entry.2.masterKey strPassphrase).isSome

instance decidableReaches (keystore : CCryptoKeyStore) (strPassphrase : Bytes) (records : List (Nat × CMasterKey)) :
    Decidable (Reaches keystore strPassphrase records) :=
  inferInstanceAs (Decidable (∀ entry ∈ passedOver keystore strPassphrase records, _))

variable {keystore : CCryptoKeyStore} {strPassphrase : Bytes} {entry : Nat × CMasterKey}
  {records : List (Nat × CMasterKey)}

theorem reaches_of_opens (opened : entry.2.opens keystore strPassphrase = true) :
    Reaches keystore strPassphrase (entry :: records) := by
  simp [Reaches, passedOver, opened]

theorem reaches_cons (closed : entry.2.opens keystore strPassphrase = false) :
    Reaches keystore strPassphrase (entry :: records) ↔
      (entry.2.masterKey strPassphrase).isSome ∧ Reaches keystore strPassphrase records := by
  simp [Reaches, passedOver, closed]

theorem opens_of_masterKey {vMasterKey : Bytes} (crypted : keystore.fUseCrypto = true)
    (decrypted : entry.2.masterKey strPassphrase = some vMasterKey) :
    entry.2.opens keystore strPassphrase = keystore.accepts vMasterKey := by
  rw [CMasterKey.opens, decrypted]
  exact CCryptoKeyStore.unlock_answer crypted

theorem not_opens_of_none (failed : entry.2.masterKey strPassphrase = none) :
    entry.2.opens keystore strPassphrase = false := by
  rw [CMasterKey.opens, failed]
  rfl

/-! ## Unlock -/

theorem unlockLoop_iff {w : CryptedWallet} (crypted : w.keystore.fUseCrypto = true) :
    (unlockLoop strPassphrase records w).2 = true ↔
      (∃ entry ∈ records, entry.2.opens w.keystore strPassphrase = true) ∧
        Reaches w.keystore strPassphrase records := by
  induction records with
  | nil => simp [unlockLoop]
  | cons entry rest ih =>
      unfold unlockLoop
      cases decrypted : entry.2.masterKey strPassphrase with
      | none =>
          rw [reaches_cons (not_opens_of_none decrypted)]
          simp [decrypted]
      | some vMasterKey =>
          have opens := opens_of_masterKey crypted decrypted
          dsimp only
          rw [CCryptoKeyStore.unlock_of_crypted crypted]
          cases accepted : w.keystore.accepts vMasterKey with
          | true =>
              have opened := opens.trans accepted
              simp [reaches_of_opens opened, opened]
          | false =>
              have closed := opens.trans accepted
              rw [reaches_cons closed]
              simpa [closed, decrypted] using ih

/-- Unlock of a locked wallet does what the passphrase says. -/
def UnlockRight (w : CryptedWallet) (strPassphrase : Bytes) : Prop :=
  (w.unlock strPassphrase).2 = true ↔
    ∃ entry ∈ w.mapMasterKeys.toList, entry.2.opens w.keystore strPassphrase = true

omit [Aes] [Curve] [ScriptDigests] [KeyDerivation] in
theorem crypted_of_locked {w : CryptedWallet} (locked : w.isLocked = true) : w.keystore.fUseCrypto = true := by
  rw [isLocked, CCryptoKeyStore.isLocked, Bool.and_eq_true] at locked
  exact locked.1

theorem unlockRight_iff {w : CryptedWallet} (locked : w.isLocked = true) :
    w.UnlockRight strPassphrase ↔
      ((∃ entry ∈ w.mapMasterKeys.toList, entry.2.opens w.keystore strPassphrase = true) →
        Reaches w.keystore strPassphrase w.mapMasterKeys.toList) := by
  have loop : w.unlock strPassphrase = unlockLoop strPassphrase w.mapMasterKeys.toList w := by
    simp [unlock, locked]
  rw [UnlockRight, loop, unlockLoop_iff (crypted_of_locked locked)]
  exact ⟨fun same opened => (same.mpr opened).2, fun reaches => ⟨And.left, fun opened => ⟨opened, reaches opened⟩⟩⟩

/-! ## ChangeWalletPassphrase -/

variable {strNew : Bytes} {measured : UInt32} {fWasLocked : Bool} {w : CryptedWallet}

theorem changeLoop_stopped (crypted : w.keystore.fUseCrypto = true)
    (stopped : Reaches w.keystore strPassphrase records →
      ∀ entry ∈ records, entry.2.opens w.keystore strPassphrase = false) :
    changeLoop strPassphrase strNew measured fWasLocked records w = (w, false) := by
  induction records with
  | nil => rfl
  | cons entry rest ih =>
      unfold changeLoop
      cases decrypted : entry.2.masterKey strPassphrase with
      | none => rfl
      | some vMasterKey =>
          have opens := opens_of_masterKey crypted decrypted
          dsimp only
          rw [CCryptoKeyStore.unlock_of_crypted crypted]
          cases accepted : w.keystore.accepts vMasterKey with
          | true =>
              have opened := opens.trans accepted
              exact absurd (stopped (reaches_of_opens opened) entry List.mem_cons_self) (by simp [opened])
          | false =>
              refine ih fun reaches other member => ?_
              have all := (reaches_cons (opens.trans accepted)).mpr ⟨by simp [decrypted], reaches⟩
              exact stopped all other (List.mem_cons_of_mem entry member)

theorem changeLoop_reached {vMasterKey : Bytes} (crypted : w.keystore.fUseCrypto = true)
    (reaches : Reaches w.keystore strPassphrase records)
    (first : (records.find? fun entry => entry.2.opens w.keystore strPassphrase) = some entry)
    (decrypted : entry.2.masterKey strPassphrase = some vMasterKey) :
    changeLoop strPassphrase strNew measured fWasLocked records w =
      changeRecord { w with keystore := { w.keystore with vMasterKey } } entry.1 entry.2 vMasterKey strNew measured
        fWasLocked := by
  induction records with
  | nil => cases first
  | cons head rest ih =>
      unfold changeLoop
      cases opened : head.2.opens w.keystore strPassphrase with
      | true =>
          rw [List.find?_cons_of_pos (by simpa using opened)] at first
          cases first
          rw [decrypted]
          dsimp only
          have accepted := (opens_of_masterKey crypted decrypted).symm.trans opened
          rw [CCryptoKeyStore.unlock_of_crypted crypted, if_pos accepted]
      | false =>
          rw [List.find?_cons_of_neg (by simp [opened])] at first
          obtain ⟨some, remaining⟩ := (reaches_cons opened).mp reaches
          obtain ⟨other, found⟩ := Option.isSome_iff_exists.mp some
          rw [found]
          dsimp only
          have refused := (opens_of_masterKey crypted found).symm.trans opened
          rw [CCryptoKeyStore.unlock_of_crypted crypted, refused]
          exact ih remaining first

/-- What AES guarantees. -/
def CipherInverts : Prop :=
  ∀ chKey chIV plain cipher, Aes.encrypt chKey chIV plain = some cipher → Aes.decrypt chKey chIV cipher = some plain

/-- The key of the new passphrase can be derived, and the master key encrypted under it. -/
def rewrites (record : CMasterKey) (strOld strNew : Bytes) (measured : UInt32) : Bool :=
  match record.masterKey strOld, { record with nDeriveIterations := atLeast25000 measured }.deriveKey strNew with
  | some vMasterKey, some (chKey, chIV) => (Aes.encrypt chKey chIV vMasterKey).isSome
  | _, _ => false

/-- ChangeWalletPassphrase is all-or-nothing. -/
def ChangeRight (w : CryptedWallet) (strOld strNew : Bytes) (measured : UInt32) : Prop :=
  let after := w.changeWalletPassphrase strOld strNew measured
  (after.2 = true ↔ ∃ entry ∈ w.mapMasterKeys.toList, entry.2.opens w.keystore strOld = true) ∧
  (after.2 = true → ∃ (id : Nat) (record changed : CMasterKey), w.mapMasterKeys[id]? = some record ∧
    record.opens w.keystore strOld = true ∧ after.1.mapMasterKeys[id]? = some changed ∧
    changed.opens after.1.keystore strNew = true ∧
    ∀ other : Nat, other ≠ id → after.1.mapMasterKeys[other]? = w.mapMasterKeys[other]?) ∧
  (after.2 = false → after.1.mapMasterKeys = w.mapMasterKeys ∧ after.1.isLocked = w.isLocked)

/-- The first record that the old passphrase opens is reached and can be written again; without one the
wallet is locked already. -/
def CanChange (w : CryptedWallet) (strOld strNew : Bytes) (measured : UInt32) : Prop :=
  (∀ entry, (w.mapMasterKeys.toList.find? fun entry => entry.2.opens w.keystore strOld) = some entry →
    Reaches w.keystore strOld w.mapMasterKeys.toList ∧ rewrites entry.2 strOld strNew measured = true) ∧
  ((w.mapMasterKeys.toList.find? fun entry => entry.2.opens w.keystore strOld) = none → w.isLocked = true)

omit [Aes] [Curve] [ScriptDigests] [KeyDerivation] in
theorem lock_eq (crypted : w.keystore.fUseCrypto = true) :
    w.lock = { w with keystore := { w.keystore with vMasterKey := [] } } := by
  rw [lock, CCryptoKeyStore.lock_of_crypted crypted]

theorem lock_opens (crypted : w.keystore.fUseCrypto = true) (strPassphrase : Bytes) :
    (fun entry : Nat × CMasterKey => entry.2.opens w.lock.keystore strPassphrase) =
      fun entry => entry.2.opens w.keystore strPassphrase := by
  funext entry
  rw [lock_eq crypted]
  exact CMasterKey.opens_congr crypted crypted rfl

theorem lock_reaches (crypted : w.keystore.fUseCrypto = true) :
    Reaches w.lock.keystore strPassphrase records ↔ Reaches w.keystore strPassphrase records := by
  have same : passedOver w.lock.keystore strPassphrase records = passedOver w.keystore strPassphrase records := by
    unfold passedOver
    congr 1
    funext entry
    rw [congrFun (lock_opens crypted strPassphrase) entry]
  rw [Reaches, same, Reaches]

omit [Aes] [Curve] [ScriptDigests] [KeyDerivation] in
theorem setMasterKey_lookup {id : Nat} {record before : CMasterKey} (known : w.mapMasterKeys[id]? = some before)
    (other : Nat) :
    (w.setMasterKey id record).mapMasterKeys[other]? = if other = id then some record else w.mapMasterKeys[other]? := by
  rw [setMasterKey, dif_pos (w.id_le id before known)]
  exact lookup_insert w.mapMasterKeys id other record

omit [Aes] [Curve] [ScriptDigests] [KeyDerivation] in
theorem setMasterKey_keystore (id : Nat) (record : CMasterKey) : (w.setMasterKey id record).keystore = w.keystore := by
  unfold setMasterKey
  split <;> rfl

omit [Curve] [ScriptDigests] in
theorem changeRecord_answer {vMasterKey : Bytes} {id : Nat} {record : CMasterKey}
    (decrypted : record.masterKey strPassphrase = some vMasterKey) :
    (changeRecord w id record vMasterKey strNew measured fWasLocked).2 = rewrites record strPassphrase strNew measured := by
  unfold changeRecord rewrites
  rw [decrypted]
  dsimp only
  cases derived : { record with nDeriveIterations := atLeast25000 measured }.deriveKey strNew with
  | none => rfl
  | some key =>
      dsimp only
      cases encrypted : Aes.encrypt key.1 key.2 vMasterKey <;> rfl

theorem changeRecord_spec {vMasterKey : Bytes} {id : Nat} {record : CMasterKey} (inverts : CipherInverts)
    (crypted : w.keystore.fUseCrypto = true) (known : w.mapMasterKeys[id]? = some record)
    (accepted : w.keystore.accepts vMasterKey = true)
    (done : (changeRecord w id record vMasterKey strNew measured fWasLocked).2 = true) :
    ∃ changed : CMasterKey,
      (changeRecord w id record vMasterKey strNew measured fWasLocked).1.mapMasterKeys[id]? = some changed ∧
      changed.opens (changeRecord w id record vMasterKey strNew measured fWasLocked).1.keystore strNew = true ∧
      ∀ other : Nat, other ≠ id →
        (changeRecord w id record vMasterKey strNew measured fWasLocked).1.mapMasterKeys[other]? =
          w.mapMasterKeys[other]? := by
  unfold changeRecord at done ⊢
  dsimp only at done ⊢
  cases derived : { record with nDeriveIterations := atLeast25000 measured }.deriveKey strNew with
  | none => simp [derived] at done
  | some key =>
      simp only [derived] at done ⊢
      cases encrypted : Aes.encrypt key.1 key.2 vMasterKey with
      | none => simp [encrypted] at done
      | some vchCryptedKey =>
          dsimp only
          refine ⟨{ record with nDeriveIterations := atLeast25000 measured, vchCryptedKey }, ?_, ?_, ?_⟩
          · have written : (w.setMasterKey id { record with
                nDeriveIterations := atLeast25000 measured, vchCryptedKey }).mapMasterKeys[id]? = some _ :=
              (setMasterKey_lookup known id).trans (if_pos rfl)
            cases fWasLocked <;> exact written
          · have rederived : CMasterKey.deriveKey
                { record with nDeriveIterations := atLeast25000 measured, vchCryptedKey } strNew = some key := derived
            have decrypted : CMasterKey.masterKey
                { record with nDeriveIterations := atLeast25000 measured, vchCryptedKey } strNew = some vMasterKey := by
              rw [CMasterKey.masterKey, rederived]
              exact inverts _ _ _ _ encrypted
            have opened : CMasterKey.opens
                { record with nDeriveIterations := atLeast25000 measured, vchCryptedKey } w.keystore strNew = true := by
              rw [CMasterKey.opens, decrypted]
              exact (CCryptoKeyStore.unlock_answer crypted).trans accepted
            cases fWasLocked with
            | false => simpa [setMasterKey_keystore] using opened
            | true =>
                rw [if_pos rfl, lock_eq (by rw [setMasterKey_keystore]; exact crypted), setMasterKey_keystore]
                rw [← opened]
                exact CMasterKey.opens_congr crypted crypted rfl
          · intro other different
            have unchanged : (w.setMasterKey id { record with
                nDeriveIterations := atLeast25000 measured, vchCryptedKey }).mapMasterKeys[other]? =
                w.mapMasterKeys[other]? :=
              (setMasterKey_lookup known other).trans (if_neg different)
            cases fWasLocked <;> exact unchanged

theorem changeRight_iff {strOld : Bytes} (inverts : CipherInverts) (crypted : w.keystore.fUseCrypto = true) :
    w.ChangeRight strOld strNew measured ↔ w.CanChange strOld strNew measured := by
  have lockCrypted : w.lock.keystore.fUseCrypto = true := by
    rw [lock_eq crypted]
    exact crypted
  unfold ChangeRight CanChange
  dsimp only
  cases first : w.mapMasterKeys.toList.find? fun entry => entry.2.opens w.keystore strOld with
  | none =>
      have closed : ∀ entry ∈ w.mapMasterKeys.toList, entry.2.opens w.keystore strOld = false := by
        intro entry member
        simpa using List.find?_eq_none.mp first entry member
      have stays : w.changeWalletPassphrase strOld strNew measured = (w.lock, false) := by
        refine changeLoop_stopped lockCrypted fun _ entry member => ?_
        rw [congrFun (lock_opens crypted strOld) entry]
        exact closed entry member
      have locks : w.lock.isLocked = true := by
        rw [lock_eq crypted]
        simp [isLocked, CCryptoKeyStore.isLocked, crypted]
      rw [stays]
      constructor
      · intro right
        refine ⟨by simp, fun _ => ?_⟩
        exact ((right.2.2 rfl).2.symm.trans locks)
      · intro can
        refine ⟨?_, by simp, fun _ => ⟨rfl, locks.trans (can.2 rfl).symm⟩⟩
        simpa using fun id record member => closed (id, record) member
  | some entry =>
      have opened : entry.2.opens w.keystore strOld = true := by simpa using List.find?_some first
      have member := List.mem_of_find?_eq_some first
      have known : w.mapMasterKeys[entry.1]? = some entry.2 :=
        Std.ExtTreeMap.mem_toList_iff_getElem?_eq_some.mp member
      obtain ⟨vMasterKey, decrypted, _⟩ := CMasterKey.opens_iff.mp opened
      have accepted : w.keystore.accepts vMasterKey = true :=
        (opens_of_masterKey crypted decrypted).symm.trans opened
      by_cases reaches : Reaches w.keystore strOld w.mapMasterKeys.toList
      · have run : w.changeWalletPassphrase strOld strNew measured =
            changeRecord { w.lock with keystore := { w.lock.keystore with vMasterKey } } entry.1 entry.2 vMasterKey
              strNew measured w.isLocked :=
          changeLoop_reached lockCrypted ((lock_reaches crypted).mpr reaches)
            (by rw [lock_opens crypted]; exact first) decrypted
        have answer : (w.changeWalletPassphrase strOld strNew measured).2 = rewrites entry.2 strOld strNew measured := by
          rw [run]
          exact changeRecord_answer decrypted
        constructor
        · intro right
          refine ⟨?_, by simp⟩
          rintro other ⟨⟩
          exact ⟨reaches, answer.symm.trans (right.1.mpr ⟨entry, member, opened⟩)⟩
        · intro can
          have done := answer.trans (can.1 entry rfl).2
          refine ⟨⟨fun _ => ⟨entry, member, opened⟩, fun _ => done⟩, fun _ => ?_, fun failed => ?_⟩
          · rw [run] at done ⊢
            obtain ⟨changed, written, fits, others⟩ := changeRecord_spec inverts
              (w := { w.lock with keystore := { w.lock.keystore with vMasterKey } }) lockCrypted known
              (by rw [← accepted, lock_eq crypted]; rfl) done
            exact ⟨entry.1, entry.2, changed, known, opened, written, fits, others⟩
          · exact absurd (done.symm.trans failed) (by decide)
      · have stays : w.changeWalletPassphrase strOld strNew measured = (w.lock, false) :=
          changeLoop_stopped lockCrypted fun reached => absurd ((lock_reaches crypted).mp reached) reaches
        rw [stays]
        constructor
        · intro right
          exact absurd (right.1.mpr ⟨entry, member, opened⟩) (by simp)
        · intro can
          exact absurd (can.1 entry rfl).1 reaches

/-! ## EncryptWallet -/

/-- EncryptWallet has undone everything where it returns false. -/
def EncryptRight (w : CryptedWallet) (strPassphrase : Bytes) (answers : EncryptionAnswers) : Prop :=
  ∀ after, w.encryptWallet strPassphrase answers = some (after, false) →
    after.keystore = w.keystore ∧ after.mapMasterKeys = w.mapMasterKeys ∧
      after.pwalletdbEncryption = w.pwalletdbEncryption

/-- The new record can be made: its key derived, and the master key encrypted. -/
def makesRecord (strPassphrase : Bytes) (answers : EncryptionAnswers) : Bool :=
  match CMasterKey.deriveKey ⟨[], answers.vchSalt.toList, 0, atLeast25000 answers.measured⟩ strPassphrase with
  | none => false
  | some (chKey, chIV) => (Aes.encrypt chKey chIV answers.vMasterKey.toList).isSome

/-- After its record is made the wallet is changed; it then returns false only where TxnBegin fails. -/
theorem encryptWith_false {strPassphrase : Bytes} {answers : EncryptionAnswers} {record : CMasterKey}
    {after : CryptedWallet} (refused : w.encryptWith strPassphrase answers record = some (after, false)) :
    w.fFileBacked = true ∧ answers.fTxnBegin = false := by
  unfold encryptWith at refused
  dsimp only at refused
  split at refused
  · rename_i failed
    simpa [addMasterKey] using failed
  · split at refused
    · cases refused
    · split at refused
      · cases refused
      · cases refused

theorem encryptWallet_cases (w : CryptedWallet) (strPassphrase : Bytes) (answers : EncryptionAnswers) :
    (¬ (w.keystore.fUseCrypto = false ∧ makesRecord strPassphrase answers = true) ∧
      w.encryptWallet strPassphrase answers = some (w, false)) ∨
    ((w.keystore.fUseCrypto = false ∧ makesRecord strPassphrase answers = true) ∧
      ∃ record, w.encryptWallet strPassphrase answers = w.encryptWith strPassphrase answers record) := by
  unfold encryptWallet makesRecord
  cases crypted : w.keystore.fUseCrypto with
  | true => exact Or.inl ⟨by simp, rfl⟩
  | false =>
      dsimp only
      cases derived : CMasterKey.deriveKey ⟨[], answers.vchSalt.toList, 0, atLeast25000 answers.measured⟩
          strPassphrase with
      | none => exact Or.inl ⟨by simp, rfl⟩
      | some key =>
          dsimp only
          cases encrypted : Aes.encrypt key.1 key.2 answers.vMasterKey.toList with
          | none => exact Or.inl ⟨by simp, rfl⟩
          | some vchCryptedKey => exact Or.inr ⟨by simp, _, rfl⟩

theorem encryptRight_iff {answers : EncryptionAnswers} :
    w.EncryptRight strPassphrase answers ↔
      ¬ (w.keystore.fUseCrypto = false ∧ makesRecord strPassphrase answers = true ∧
        w.fFileBacked = true ∧ answers.fTxnBegin = false) := by
  rcases encryptWallet_cases w strPassphrase answers with ⟨early, unchanged⟩ | ⟨made, record, goesOn⟩
  · refine iff_of_true (fun after refused => ?_) fun late => early ⟨late.1, late.2.1⟩
    cases unchanged.symm.trans refused
    exact ⟨rfl, rfl, rfl⟩
  · constructor
    · rintro right ⟨_, _, backed, begins⟩
      have refused : ∃ after, w.encryptWith strPassphrase answers record = some (after, false) ∧
          after.mapMasterKeys = w.mapMasterKeys.insert (w.nMasterKeyMaxID + 1) record := by
        unfold encryptWith
        dsimp only
        rw [if_pos (by simp [addMasterKey, backed, begins])]
        exact ⟨_, rfl, rfl⟩
      obtain ⟨after, run, inserted⟩ := refused
      have added := congrArg (fun map => map[w.nMasterKeyMaxID + 1]?)
        (inserted.symm.trans (right after (goesOn.trans run)).2.1)
      simp only [lookup_insert, if_true] at added
      exact absurd (w.id_le _ _ added.symm) (by omega)
    · intro begins after refused
      obtain ⟨backed, fails⟩ := encryptWith_false (goesOn.symm.trans refused)
      exact absurd ⟨made.1, made.2, backed, fails⟩ begins

/-- Each passphrase operation is all-or-nothing exactly where nothing stops it half-way: no record before
the one that opens fails, the new passphrase can be used, a wallet that no record opens is locked already,
and the database transaction begins. -/
theorem passphrases_allOrNothing (inverts : CipherInverts) (w : CryptedWallet) (strPassphrase strOld strNew : Bytes)
    (measured : UInt32) (answers : EncryptionAnswers) :
    (w.isLocked = true → (w.UnlockRight strPassphrase ↔
      ((∃ entry ∈ w.mapMasterKeys.toList, entry.2.opens w.keystore strPassphrase = true) →
        Reaches w.keystore strPassphrase w.mapMasterKeys.toList))) ∧
    (w.keystore.fUseCrypto = true →
      (w.ChangeRight strOld strNew measured ↔ w.CanChange strOld strNew measured)) ∧
    (w.EncryptRight strPassphrase answers ↔
      ¬ (w.keystore.fUseCrypto = false ∧ makesRecord strPassphrase answers = true ∧
        w.fFileBacked = true ∧ answers.fTxnBegin = false)) :=
  ⟨unlockRight_iff, changeRight_iff inverts, encryptRight_iff⟩

end CryptedWallet

end

namespace Sample

/-- A derivation for examples, whose keys are the passphrases. -/
scoped instance keyDerivation : KeyDerivation where
  bytesToKey strKeyData _ _ := some (strKeyData, [])

theorem cipherInverts : CryptedWallet.CipherInverts := by
  rintro chKey chIV plain cipher ⟨⟩
  simp [Aes.decrypt]

def recordFor (strPassphrase : Bytes) : CMasterKey := ⟨strPassphrase ++ masterKey, List.replicate 8 0, 0, 25000⟩

/-- A locked wallet with one key and the records of two passphrases. -/
def twoRecords : CryptedWallet where
  keystore := (((CCryptoKeyStore.empty.addKey firstKey).1.encryptKeys masterKey).1.lock).1
  mapMasterKeys := ((∅ : Std.ExtTreeMap Nat CMasterKey).insert 1 (recordFor [1])).insert 2 (recordFor [2])
  nMasterKeyMaxID := 2
  fFileBacked := true
  pwalletdbEncryption := false
  id_le := by
    intro id record found
    rw [lookup_insert, lookup_insert] at found
    split at found
    · omega
    · split at found
      · omega
      · simp at found

def answers : EncryptionAnswers := ⟨.replicate 32 7, .replicate 8 0, 30000, true, true, id⟩

end Sample

namespace CryptedWallet

open Sample

theorem passphrases_allOrNothing_sample :
    twoRecords.UnlockRight [1] ∧ twoRecords.ChangeRight [1] [3] 30000 ∧ twoRecords.EncryptRight [1] answers := by
  obtain ⟨unlocks, changes, encrypts⟩ := passphrases_allOrNothing cipherInverts twoRecords [1] [1] [3] 30000 answers
  refine ⟨(unlocks (by decide)).mpr fun _ => by decide, (changes (by decide)).mpr ?_,
    encrypts.mpr (by decide)⟩
  refine ⟨fun entry first => ?_, fun none => absurd none (by decide)⟩
  have isFirst : twoRecords.mapMasterKeys.toList.find?
      (fun entry => entry.2.opens twoRecords.keystore [1]) = some (1, recordFor [1]) := by decide
  cases first.symm.trans isFirst
  exact ⟨by decide, by decide⟩

/-- The passphrase of the second record is refused, since the first cannot be decrypted with it. -/
theorem unlock_refused :
    ¬ ∀ (w : CryptedWallet) (strPassphrase strOld strNew : Bytes) (measured : UInt32) (answers : EncryptionAnswers),
      (w.isLocked = true → w.UnlockRight strPassphrase) ∧
        (w.keystore.fUseCrypto = true → w.ChangeRight strOld strNew measured) ∧ w.EncryptRight strPassphrase answers := by
  intro always
  have right := (always twoRecords [2] [2] [3] 30000 answers).1 (by decide)
  exact absurd (right.mpr ⟨(2, recordFor [2]), by decide, by decide⟩) (by decide)

end CryptedWallet

end BitCrystal
