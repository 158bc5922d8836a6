import BitCrystal.InterpreterLimits
import BitCrystal.Keystore

namespace BitCrystal

open Data

/-! # The encrypted key store as a plain key map behind a lock -/

/-- What OpenSSL guarantees of a key that is set. -/
structure CKey.Valid [Curve] (key : CKey) : Prop where
  size : key.vchSecret.length = 32
  isPoint : Curve.isPoint key.getPubKey = true
  form : key.getPubKey.vchPubKey.length = 33 ↔ key.fCompressedPubKey = true

section

variable [Aes] [Curve] [ScriptDigests]

/-- DecryptSecret inverts EncryptSecret, and under another key it never yields a secret that matches
the public key. -/
structure CrypterLaws : Prop where
  inverts : ∀ (vMasterKey vchSecret vchCryptedSecret : Bytes) (nIV : UInt256),
    encryptSecret vMasterKey vchSecret nIV = some vchCryptedSecret →
      decryptSecret vMasterKey vchCryptedSecret nIV = some vchSecret
  separates : ∀ (vMasterKey other vchCryptedSecret vchSecret : Bytes) (key : CKey),
    encryptSecret vMasterKey key.vchSecret key.getPubKey.getHash = some vchCryptedSecret →
      other ≠ vMasterKey → decryptSecret other vchCryptedSecret key.getPubKey.getHash = some vchSecret →
        Curve.pubKey vchSecret key.fCompressedPubKey ≠ key.getPubKey

namespace CCryptoKeyStore

variable {s next : CCryptoKeyStore} {vMasterKey other vchCryptedSecret : Bytes} {key : CKey} {id : CKeyID}
  {keys : CKeyID → Option CKey}

omit [Aes] [ScriptDigests] in
theorem compressed_of_pubKey (valid : key.Valid) : CKey.null.setPubKey key.getPubKey = ⟨[], key.fCompressedPubKey⟩ := by
  have form : decide (key.getPubKey.vchPubKey.length = 33) = key.fCompressedPubKey := by
    rw [Bool.eq_iff_iff, decide_eq_true_eq]
    exact valid.form
  rw [CKey.setPubKey, if_pos valid.isPoint, form]
  rfl

omit [Aes] [ScriptDigests] in
theorem restored (valid : key.Valid) (vchSecret : Bytes) :
    (CKey.null.setPubKey key.getPubKey).setSecret vchSecret false = ⟨vchSecret, key.fCompressedPubKey⟩ := by
  rw [compressed_of_pubKey valid]
  rfl

variable (other) in
theorem opens_iff (laws : CrypterLaws) (valid : key.Valid)
    (encrypted : encryptSecret vMasterKey key.vchSecret key.getPubKey.getHash = some vchCryptedSecret) :
    opens other (key.getPubKey, vchCryptedSecret) = true ↔ other = vMasterKey := by
  unfold opens
  constructor
  · intro open'
    by_contra different
    simp only at open'
    split at open'
    · cases open'
    · rename_i vchSecret decrypted
      rw [restored valid, Bool.and_eq_true, decide_eq_true_eq, decide_eq_true_eq] at open'
      exact laws.separates vMasterKey other vchCryptedSecret vchSecret key encrypted different decrypted open'.2
  · rintro rfl
    simp only [laws.inverts _ _ _ _ encrypted, restored valid, valid.size, decide_true, Bool.and_true]

/-- The records are the keys, encrypted under the master key, which is the only one held. -/
structure Refines (vMasterKey : Bytes) (keys : CKeyID → Option CKey) (s : CCryptoKeyStore) : Prop where
  crypted : s.fUseCrypto = true
  plain : s.mapKeys = ∅
  valid : ∀ (id : CKeyID) (key : CKey), keys id = some key → key.Valid
  encrypted : ∀ (id : CKeyID) (key : CKey), keys id = some key →
    ∃ vchCryptedSecret, encryptSecret vMasterKey key.vchSecret key.getPubKey.getHash = some vchCryptedSecret ∧
      s.mapCryptedKeys[id]? = some (key.getPubKey, vchCryptedSecret)
  absent : ∀ (id : CKeyID), keys id = none → s.mapCryptedKeys[id]? = none
  held : ∀ id, keys id ≠ none → s.vMasterKey = [] ∨ s.vMasterKey = vMasterKey

omit [Aes] [Curve] [ScriptDigests] in
theorem setCrypted_of_crypted (crypted : s.fUseCrypto = true) : s.setCrypted = (s, true) := by
  simp [setCrypted, crypted]

omit [Aes] [Curve] [ScriptDigests] in
theorem lock_of_crypted (crypted : s.fUseCrypto = true) : s.lock = ({ s with vMasterKey := [] }, true) := by
  simp [lock, setCrypted_of_crypted crypted]

theorem Refines.record {id : CKeyID} {record : CPubKey × Bytes} (refines : Refines vMasterKey keys s)
    (found : s.mapCryptedKeys[id]? = some record) :
    ∃ key, keys id = some key ∧ record.1 = key.getPubKey ∧
      encryptSecret vMasterKey key.vchSecret key.getPubKey.getHash = some record.2 := by
  cases known : keys id with
  | none =>
      rw [refines.absent id known] at found
      cases found
  | some key =>
      obtain ⟨vchCryptedSecret, encrypted, found'⟩ := refines.encrypted id key known
      rw [found] at found'
      cases found'
      exact ⟨key, rfl, rfl, encrypted⟩

theorem Refines.first (refines : Refines vMasterKey keys s) :
    (s.mapCryptedKeys.toList = [] ∧ ∀ id, keys id = none) ∨
      ∃ id key vchCryptedSecret rest, s.mapCryptedKeys.toList = (id, key.getPubKey, vchCryptedSecret) :: rest ∧
        keys id = some key ∧
        encryptSecret vMasterKey key.vchSecret key.getPubKey.getHash = some vchCryptedSecret := by
  cases records : s.mapCryptedKeys.toList with
  | nil =>
      refine .inl ⟨rfl, fun id => ?_⟩
      cases known : keys id with
      | none => rfl
      | some key =>
          obtain ⟨vchCryptedSecret, -, found⟩ := refines.encrypted id key known
          have listed := Std.ExtTreeMap.mem_toList_iff_getElem?_eq_some.mpr found
          rw [records] at listed
          cases listed
  | cons record rest =>
      obtain ⟨id, pubKey, vchCryptedSecret⟩ := record
      have listed : (id, pubKey, vchCryptedSecret) ∈ s.mapCryptedKeys.toList := records ▸ List.mem_cons_self
      obtain ⟨key, known, rfl, encrypted⟩ :=
        refines.record (Std.ExtTreeMap.mem_toList_iff_getElem?_eq_some.mp listed)
      exact .inr ⟨id, key, vchCryptedSecret, rest, rfl, known, encrypted⟩

theorem Refines.unlock_eq (laws : CrypterLaws) (refines : Refines vMasterKey keys s) (vMasterKeyIn : Bytes) :
    s.unlock vMasterKeyIn =
      if (∀ id, keys id = none) ∨ vMasterKeyIn = vMasterKey then ({ s with vMasterKey := vMasterKeyIn }, true)
      else (s, false) := by
  simp only [unlock, setCrypted_of_crypted refines.crypted]
  rcases refines.first with ⟨records, none⟩ | ⟨id, key, vchCryptedSecret, rest, records, known, encrypted⟩
  · simp only [records]
    rw [if_pos (.inl none)]
  · simp only [records]
    have opens := opens_iff vMasterKeyIn laws (refines.valid id key known) encrypted
    by_cases same : vMasterKeyIn = vMasterKey
    · rw [if_pos (opens.mpr same), if_pos (.inr same)]
    · have some' : ¬∀ id, keys id = none := fun none => by simp [none id] at known
      rw [if_neg (fun holds => same (opens.mp holds)), if_neg (by tauto)]

/-! ## The calls -/

inductive Call where
  | addKey (key : CKey)
  | lock
  | unlock (vMasterKeyIn : Bytes)

def perform (s : CCryptoKeyStore) : Call → CCryptoKeyStore × Bool
  | .addKey key => s.addKey key
  | .lock => s.lock
  | .unlock vMasterKeyIn => s.unlock vMasterKeyIn

/-- The keys that are added by a call that answers `done`. -/
def Call.added (keys : CKeyID → Option CKey) (done : Bool) : Call → CKeyID → Option CKey
  | .addKey key => if done then Function.update keys key.getPubKey.getID (some key) else keys
  | _ => keys

def run : List Call → CCryptoKeyStore → (CKeyID → Option CKey) → CCryptoKeyStore × (CKeyID → Option CKey)
  | [], s, keys => (s, keys)
  | call :: rest, s, keys => run rest (s.perform call).1 (call.added keys (s.perform call).2)

theorem Refines.getKey_eq (laws : CrypterLaws) (refines : Refines vMasterKey keys s) (id : CKeyID) :
    s.getKey id = if s.isLocked then none else keys id := by
  simp only [getKey, refines.crypted, Bool.not_true, Bool.false_eq_true, if_false]
  cases known : keys id with
  | none => simp [refines.absent id known]
  | some key =>
      obtain ⟨vchCryptedSecret, encrypted, found⟩ := refines.encrypted id key known
      have valid := refines.valid id key known
      simp only [found]
      rcases refines.held id (by simp [known]) with locked | held
      · simp [isLocked, refines.crypted, locked, decryptSecret, WALLET_CRYPTO_KEY_SIZE]
      · have unlocked : s.isLocked = false := by
          unfold encryptSecret at encrypted
          split at encrypted
          · cases encrypted
          · rename_i size
            rw [isLocked, held]
            cases vMasterKey with
            | nil => exact absurd (by decide) size
            | cons byte rest => simp
        rw [unlocked]
        simp only [held, laws.inverts _ _ _ _ encrypted, valid.size, ne_eq, not_true, if_false, restored valid,
          Bool.false_eq_true]

theorem Refines.getPubKey_eq (refines : Refines vMasterKey keys s) (id : CKeyID) :
    s.getPubKey id = (keys id).map CKey.getPubKey := by
  simp only [getPubKey, refines.crypted, Bool.not_true, Bool.false_eq_true, if_false]
  cases known : keys id with
  | none => simp [refines.absent id known]
  | some key =>
      obtain ⟨vchCryptedSecret, -, found⟩ := refines.encrypted id key known
      simp [found]

/-- AddKey stores the key under the master key that is held, which is the one of the other keys. -/
theorem Refines.addKey (refines : Refines vMasterKey keys s) (valid : key.Valid) :
    ((s.addKey key).2 = false ∧ (s.addKey key).1 = s) ∨
      ((s.addKey key).2 = true ∧ ((∃ id, keys id ≠ none) → s.vMasterKey = vMasterKey) ∧
        Refines s.vMasterKey (Function.update keys key.getPubKey.getID (some key)) (s.addKey key).1) := by
  simp only [CCryptoKeyStore.addKey, refines.crypted, Bool.not_true, Bool.false_eq_true, if_false]
  split
  · exact .inl ⟨rfl, rfl⟩
  · rename_i unlocked
    cases encrypted : encryptSecret s.vMasterKey key.vchSecret key.getPubKey.getHash with
    | none => exact .inl ⟨rfl, rfl⟩
    | some vchCryptedSecret =>
        refine .inr ?_
        simp only [addCryptedKey, setCrypted_of_crypted refines.crypted, true_and]
        have same : (∃ id, keys id ≠ none) → s.vMasterKey = vMasterKey := by
          rintro ⟨id, some'⟩
          rcases refines.held id some' with locked | held
          · simp [isLocked, refines.crypted, locked] at unlocked
          · exact held
        refine ⟨same, refines.crypted, refines.plain, ?_, ?_, ?_, fun _ _ => .inr rfl⟩
        · intro id other known
          rw [Function.update_apply] at known
          split at known
          · cases known
            exact valid
          · exact refines.valid id other known
        · intro id other known
          rw [lookup_insert]
          rw [Function.update_apply] at known
          split at known
          · rename_i here
            cases known
            exact ⟨vchCryptedSecret, encrypted, if_pos here⟩
          · rename_i elsewhere
            obtain ⟨before, encrypted', found⟩ := refines.encrypted id other known
            rw [same ⟨id, by simp [known]⟩]
            exact ⟨before, encrypted', (if_neg elsewhere).trans found⟩
        · intro id none
          rw [Function.update_apply] at none
          split at none
          · cases none
          · rename_i elsewhere
            rw [lookup_insert, if_neg elsewhere]
            exact refines.absent id none

theorem Refines.hold (refines : Refines vMasterKey keys s) {vMasterKeyIn : Bytes}
    (held : ∀ id, keys id ≠ none → vMasterKeyIn = [] ∨ vMasterKeyIn = vMasterKey) :
    Refines vMasterKey keys { s with vMasterKey := vMasterKeyIn } :=
  ⟨refines.crypted, refines.plain, refines.valid, refines.encrypted, refines.absent, held⟩

/-- Every key that is added is one that OpenSSL has set. -/
def Call.Valid : Call → Prop
  | .addKey key => key.Valid
  | _ => True

theorem Refines.perform (laws : CrypterLaws) (refines : Refines vMasterKey keys s) {call : Call} (valid : call.Valid) :
    ∃ after, ((∃ id, keys id ≠ none) → after = vMasterKey) ∧
      Refines after (call.added keys (s.perform call).2) (s.perform call).1 := by
  cases call with
  | addKey key =>
      rcases refines.addKey valid with ⟨failed, same⟩ | ⟨done, master, after⟩
      · refine ⟨vMasterKey, fun _ => rfl, ?_⟩
        simp only [CCryptoKeyStore.perform, Call.added, failed, same, Bool.false_eq_true, if_false]
        exact refines
      · refine ⟨s.vMasterKey, master, ?_⟩
        simp only [CCryptoKeyStore.perform, Call.added, done, if_true]
        exact after
  | lock =>
      refine ⟨vMasterKey, fun _ => rfl, ?_⟩
      simp only [CCryptoKeyStore.perform, Call.added, lock_of_crypted refines.crypted]
      exact refines.hold fun _ _ => .inl rfl
  | unlock vMasterKeyIn =>
      refine ⟨vMasterKey, fun _ => rfl, ?_⟩
      simp only [CCryptoKeyStore.perform, Call.added, refines.unlock_eq laws]
      split
      · rename_i opened
        refine refines.hold fun id some' => ?_
        rcases opened with none | same
        · exact absurd (none id) some'
        · exact .inr same
      · exact refines

omit [Aes] [ScriptDigests] in
theorem Call.added_ne_none [ScriptDigests] {call : Call} {done : Bool} (known : keys id ≠ none) :
    call.added keys done id ≠ none := by
  cases call with
  | addKey key =>
      simp only [Call.added]
      split
      · rw [Function.update_apply]
        split
        · simp
        · exact known
      · exact known
  | lock => exact known
  | unlock vMasterKeyIn => exact known

theorem Refines.run (laws : CrypterLaws) (refines : Refines vMasterKey keys s) {calls : List Call}
    (valid : ∀ call ∈ calls, call.Valid) :
    ∃ after, ((∃ id, keys id ≠ none) → after = vMasterKey) ∧
      Refines after (CCryptoKeyStore.run calls s keys).2 (CCryptoKeyStore.run calls s keys).1 := by
  induction calls generalizing s keys vMasterKey with
  | nil => exact ⟨vMasterKey, fun _ => rfl, refines⟩
  | cons call rest ih =>
      obtain ⟨mid, kept, refines'⟩ := refines.perform laws (valid call List.mem_cons_self)
      obtain ⟨after, kept', refines''⟩ := ih refines' fun call later => valid call (List.mem_cons_of_mem _ later)
      refine ⟨after, ?_, refines''⟩
      rintro ⟨id, known⟩
      rw [kept' ⟨id, Call.added_ne_none known⟩, kept ⟨id, known⟩]

/-! ## Encryption -/

/-- The store before it is encrypted. -/
structure Plain (keys : CKeyID → Option CKey) (s : CCryptoKeyStore) : Prop where
  crypted : s.fUseCrypto = false
  records : s.mapCryptedKeys = ∅
  locked : s.vMasterKey = []
  found : ∀ id, s.mapKeys[id]? = (keys id).map fun key => (key.vchSecret, key.fCompressedPubKey)
  valid : ∀ (id : CKeyID) (key : CKey), keys id = some key → key.Valid ∧ key.getPubKey.getID = id

omit [Aes] in
theorem Plain.empty : Plain (fun _ => none) CCryptoKeyStore.empty :=
  ⟨rfl, rfl, rfl, by simp [CCryptoKeyStore.empty], by simp⟩

theorem Plain.addKey (plain : Plain keys s) (valid : key.Valid) :
    (s.addKey key).2 = true ∧ Plain (Function.update keys key.getPubKey.getID (some key)) (s.addKey key).1 := by
  simp only [CCryptoKeyStore.addKey, plain.crypted, Bool.not_false, if_true, true_and]
  refine ⟨rfl, plain.records, plain.locked, ?_, ?_⟩
  · intro id
    rw [lookup_insert, Function.update_apply, plain.found]
    split <;> rfl
  · intro id other known
    rw [Function.update_apply] at known
    split at known
    · rename_i here
      cases known
      exact ⟨valid, here.symm⟩
    · exact plain.valid id other known

theorem Plain.run {added : List CKey} (plain : Plain keys s) (valid : ∀ key ∈ added, key.Valid) :
    Plain (CCryptoKeyStore.run (added.map .addKey) s keys).2 (CCryptoKeyStore.run (added.map .addKey) s keys).1 := by
  induction added generalizing s keys with
  | nil => exact plain
  | cons key rest ih =>
      obtain ⟨done, plain'⟩ := plain.addKey (valid key List.mem_cons_self)
      have step : (Call.addKey key).added keys (s.addKey key).2 =
          Function.update keys key.getPubKey.getID (some key) := by
        simp only [Call.added, done, if_true]
      rw [List.map_cons, CCryptoKeyStore.run, CCryptoKeyStore.perform, step]
      exact ih plain' fun other later => valid other (List.mem_cons_of_mem key later)

omit [Aes] [Curve] [ScriptDigests] in
theorem null_setSecret (vchSecret : Bytes) (fCompressed : Bool) :
    CKey.null.setSecret vchSecret fCompressed = ⟨vchSecret, fCompressed⟩ := by
  rw [CKey.setSecret, CKey.null, Bool.or_false]

theorem encryptLoop_spec {entries : List (CKeyID × Bytes × Bool)} (crypted : s.fUseCrypto = true)
    (ids : (entries.map Prod.fst).Nodup)
    (own : ∀ entry ∈ entries, (CKey.mk entry.2.1 entry.2.2).getPubKey.getID = entry.1)
    (done : encryptLoop vMasterKey entries s = (next, true)) :
    next.fUseCrypto = true ∧ next.vMasterKey = s.vMasterKey ∧
      (∀ entry ∈ entries, ∃ vchCryptedSecret,
        encryptSecret vMasterKey entry.2.1 (CKey.mk entry.2.1 entry.2.2).getPubKey.getHash = some vchCryptedSecret ∧
          next.mapCryptedKeys[entry.1]? = some ((CKey.mk entry.2.1 entry.2.2).getPubKey, vchCryptedSecret)) ∧
      ∀ id, id ∉ entries.map Prod.fst → next.mapCryptedKeys[id]? = s.mapCryptedKeys[id]? := by
  induction entries generalizing s with
  | nil =>
      cases done
      exact ⟨crypted, rfl, by simp, fun _ _ => rfl⟩
  | cons entry rest ih =>
      obtain ⟨id, vchSecret, fCompressed⟩ := entry
      rw [List.map_cons, List.nodup_cons] at ids
      have mine := own _ List.mem_cons_self
      simp only [encryptLoop, null_setSecret] at done
      split at done
      · cases done
      · rename_i vchCryptedSecret encrypted
        simp only [addCryptedKey, setCrypted_of_crypted crypted, mine] at done
        obtain ⟨crypted', locked, encrypted', others⟩ :=
          ih (s := { s with
            mapCryptedKeys := s.mapCryptedKeys.insert id ((CKey.mk vchSecret fCompressed).getPubKey, vchCryptedSecret) })
            crypted ids.2 (fun entry later => own entry (List.mem_cons_of_mem _ later)) done
        refine ⟨crypted', locked, ?_, ?_⟩
        · intro entry member
          rcases List.mem_cons.mp member with rfl | later
          · refine ⟨vchCryptedSecret, encrypted, ?_⟩
            rw [others id ids.1, lookup_insert, if_pos rfl]
          · exact encrypted' entry later
        · intro other outside
          rw [List.map_cons, List.mem_cons, not_or] at outside
          rw [others other outside.2, lookup_insert, if_neg outside.1]

theorem Plain.encryptKeys (plain : Plain keys s) (done : s.encryptKeys vMasterKey = (next, true)) :
    Refines vMasterKey keys next := by
  unfold CCryptoKeyStore.encryptKeys at done
  have enters : (!s.mapCryptedKeys.isEmpty || s.fUseCrypto) = false := by simp [plain.crypted, plain.records]
  simp only [enters, Bool.false_eq_true, if_false] at done
  split at done
  · cases done
  · rename_i encrypted finished
    cases done
    have key_of : ∀ entry ∈ s.mapKeys.toList, keys entry.1 = some (CKey.mk entry.2.1 entry.2.2) := by
      intro entry listed
      have found := Std.ExtTreeMap.mem_toList_iff_getElem?_eq_some.mp listed
      rw [plain.found, Option.map_eq_some_iff] at found
      obtain ⟨key, known, same⟩ := found
      rw [known, ← same]
    obtain ⟨crypted, locked, records, others⟩ := encryptLoop_spec (s := { s with fUseCrypto := true }) rfl
      (toList_keys_nodup s.mapKeys) (fun entry listed => (plain.valid _ _ (key_of entry listed)).2) finished
    refine ⟨crypted, rfl, fun id key known => (plain.valid id key known).1, ?_, ?_, ?_⟩
    · intro id key known
      have listed : (id, key.vchSecret, key.fCompressedPubKey) ∈ s.mapKeys.toList := by
        rw [Std.ExtTreeMap.mem_toList_iff_getElem?_eq_some, plain.found, known, Option.map_some]
      exact records _ listed
    · intro id unknown
      refine (others id ?_).trans ?_
      · intro inside
        obtain ⟨entry, listed, same⟩ := List.mem_map.mp inside
        have known := key_of entry listed
        rw [same, unknown] at known
        cases known
      · change s.mapCryptedKeys[id]? = none
        rw [plain.records, Std.ExtTreeMap.getElem?_empty]
    · exact fun _ _ => .inl (locked.trans plain.locked)

theorem run_ne_none {calls : List Call} (known : keys id ≠ none) : (CCryptoKeyStore.run calls s keys).2 id ≠ none := by
  induction calls generalizing s keys with
  | nil => exact known
  | cons call rest ih => exact ih (Call.added_ne_none known)

/-- A plain key map behind a lock: the secrets are those of the keys, encrypted under one master key,
which alone opens a store with keys; and calls that fail leave the store as it was. -/
structure Gated (vMasterKey : Bytes) (keys : CKeyID → Option CKey) (s : CCryptoKeyStore) : Prop where
  plain : s.mapKeys = ∅
  records : ∀ (id : CKeyID) (record : CPubKey × Bytes), s.mapCryptedKeys[id]? = some record →
    ∃ key, keys id = some key ∧ record.1 = key.getPubKey ∧
      encryptSecret vMasterKey key.vchSecret key.getPubKey.getHash = some record.2
  unlock : (∃ id, keys id ≠ none) → ∀ vMasterKeyIn,
    (s.unlock vMasterKeyIn).2 = true ↔ vMasterKeyIn = vMasterKey
  getKey : ∀ id, s.getKey id = if s.isLocked then none else keys id
  getPubKey : ∀ id, s.getPubKey id = (keys id).map CKey.getPubKey
  unlockFails : ∀ vMasterKeyIn, (s.unlock vMasterKeyIn).2 = false → (s.unlock vMasterKeyIn).1 = s
  addKeyFails : ∀ key : CKey, key.Valid → (s.addKey key).2 = false → (s.addKey key).1 = s

theorem Refines.gated (laws : CrypterLaws) (refines : Refines vMasterKey keys s) : Gated vMasterKey keys s where
  plain := refines.plain
  records _ _ found := refines.record found
  unlock := by
    rintro ⟨id, known⟩ vMasterKeyIn
    have some' : ¬∀ id, keys id = none := fun none => known (none id)
    rw [refines.unlock_eq laws]
    split
    · rename_i opened
      exact iff_of_true rfl (opened.resolve_left some')
    · rename_i refused
      exact iff_of_false (by simp) fun same => refused (.inr same)
  getKey := refines.getKey_eq laws
  getPubKey := refines.getPubKey_eq
  unlockFails := by
    intro vMasterKeyIn failed
    rw [refines.unlock_eq laws] at failed ⊢
    split at failed
    · cases failed
    · rename_i refused
      rw [if_neg refused]
  addKeyFails := by
    intro key valid failed
    rcases refines.addKey valid with ⟨-, same⟩ | ⟨done, -⟩
    · exact same
    · rw [failed] at done
      cases done

/-- Keys are added to an empty store, EncryptKeys encrypts it, and then calls are made in any order. -/
theorem cryptoKeyStore_refines (laws : CrypterLaws) {before : List CKey} {calls : List Call}
    (validKeys : ∀ key ∈ before, key.Valid) (validCalls : ∀ call ∈ calls, call.Valid)
    (encrypted : (CCryptoKeyStore.run (before.map .addKey) empty fun _ => none).1.encryptKeys vMasterKey =
      (s, true)) :
    ∃ held, (before ≠ [] → held = vMasterKey) ∧
      Gated held
        (CCryptoKeyStore.run calls s (CCryptoKeyStore.run (before.map .addKey) empty fun _ => none).2).2
        (CCryptoKeyStore.run calls s (CCryptoKeyStore.run (before.map .addKey) empty fun _ => none).2).1 := by
  have plain := Plain.empty.run validKeys
  obtain ⟨held, kept, refines⟩ := (plain.encryptKeys encrypted).run laws validCalls
  refine ⟨held, fun some' => kept ?_, refines.gated laws⟩
  cases before with
  | nil => exact absurd rfl some'
  | cons key rest =>
      refine ⟨key.getPubKey.getID, ?_⟩
      rw [List.map_cons, CCryptoKeyStore.run]
      exact run_ne_none (by simp [Call.added, CCryptoKeyStore.perform, CCryptoKeyStore.addKey, empty])

end CCryptoKeyStore

end

namespace Sample

/-- A cipher for examples, which writes the key in front of the text. -/
scoped instance aes : Aes where
  encrypt key _ plain := some (key ++ plain)
  decrypt key _ cipher := if cipher.take key.length = key then some (cipher.drop key.length) else none

/-- A curve for examples, whose points are the secrets. -/
scoped instance curve : Curve where
  pubKey vchSecret fCompressed := ⟨if fCompressed then 2 :: vchSecret else 4 :: (vchSecret ++ vchSecret)⟩
  isPoint _ := true

theorem crypterLaws [ScriptDigests] : CrypterLaws where
  inverts := by
    intro vMasterKey vchSecret vchCryptedSecret nIV encrypted
    unfold encryptSecret at encrypted
    unfold decryptSecret
    split at encrypted
    · cases encrypted
    · rename_i size
      cases encrypted
      simp [Aes.decrypt, not_not.mp size]
  separates := by
    intro vMasterKey other vchCryptedSecret vchSecret key encrypted different decrypted
    unfold encryptSecret at encrypted
    unfold decryptSecret at decrypted
    split at encrypted
    · cases encrypted
    · rename_i size
      cases encrypted
      split at decrypted
      · cases decrypted
      · rename_i otherSize
        simp only [Aes.decrypt] at decrypted
        split at decrypted
        · rename_i same
          have lengths : vMasterKey.length = other.length := by
            rw [not_not.mp size, not_not.mp otherSize]
          rw [List.take_left' lengths] at same
          exact absurd same.symm different
        · cases decrypted

def masterKey : Bytes := List.replicate 32 7

def firstKey : CKey := ⟨List.replicate 32 1, true⟩

def secondKey : CKey := ⟨List.replicate 32 2, false⟩

def keyCalls : List CCryptoKeyStore.Call := [.unlock [1], .unlock masterKey, .addKey secondKey, .lock]

end Sample

namespace CCryptoKeyStore

open Sample

theorem cryptoKeyStore_refines_sample :
    ∃ held, ([firstKey] ≠ [] → held = masterKey) ∧
      Gated held
        (run keyCalls ((run ([firstKey].map .addKey) empty fun _ => none).1.encryptKeys masterKey).1
          (run ([firstKey].map .addKey) empty fun _ => none).2).2
        (run keyCalls ((run ([firstKey].map .addKey) empty fun _ => none).1.encryptKeys masterKey).1
          (run ([firstKey].map .addKey) empty fun _ => none).2).1 := by
  refine cryptoKeyStore_refines crypterLaws ?_ ?_ (Prod.ext rfl (by decide))
  · intro key member
    rw [List.mem_singleton.mp member]
    exact ⟨by decide, rfl, by decide⟩
  · intro call member
    simp only [keyCalls, List.mem_cons, List.not_mem_nil, or_false] at member
    rcases member with rfl | rfl | rfl | rfl
    · trivial
    · trivial
    · exact ⟨by decide, rfl, by decide⟩
    · trivial

end CCryptoKeyStore

end BitCrystal
