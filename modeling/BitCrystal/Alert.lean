import BitCrystal.CoinsSerialize
import BitCrystal.TransactionSerialize
import BitCrystal.Data.Tables

namespace BitCrystal

open Data

/-! # Alerts -/

structure CUnsignedAlert where
  nVersion : Int
  nRelayUntil : Int
  nExpiration : Int
  nID : Int
  nCancel : Int
  setCancel : Finset Int
  nMinVer : Int
  nMaxVer : Int
  setSubVer : Finset Bytes
  nPriority : Int
  strComment : Bytes
  strStatusBar : Bytes
  strReserved : Bytes
deriving DecidableEq

/-- A signed integer of `width` bytes. -/
def readSigned (width : Nat) : Reader Int := do
  let n ← Reader.littleEndian width
  return (BitVec.ofNat (8 * width) n).toInt

def CUnsignedAlert.unserialize : Reader CUnsignedAlert := do
  let nVersion ← readSigned 4
  let nRelayUntil ← readSigned 8
  let nExpiration ← readSigned 8
  let nID ← readSigned 4
  let nCancel ← readSigned 4
  let setCancel ← readVector (readSigned 4)
  let nMinVer ← readSigned 4
  let nMaxVer ← readSigned 4
  let setSubVer ← readVector readBytes
  let nPriority ← readSigned 4
  let strComment ← readBytes
  let strStatusBar ← readBytes
  let strReserved ← readBytes
  return ⟨nVersion, nRelayUntil, nExpiration, nID, nCancel, setCancel.toFinset, nMinVer, nMaxVer,
    setSubVer.toFinset, nPriority, strComment, strStatusBar, strReserved⟩

structure CAlert extends CUnsignedAlert where
  vchMsg : Bytes
  vchSig : Bytes
deriving DecidableEq

/-- The signatures that the key of the network verifies. -/
class AlertKey where
  verify : UInt256 → Bytes → Bool

/-- `std::numeric_limits<int>::max()` -/
def maxInt : Int := 2147483647

def urgentStatusBar : Bytes :=
  "URGENT: Alert key compromised, upgrade required".toList.map fun c => UInt8.ofNat c.toNat

namespace CAlert

def isInEffect (alert : CAlert) (nNow : Int) : Bool := nNow < alert.nExpiration

def cancels (alert : CAlert) (nNow : Int) (other : CAlert) : Bool :=
  alert.isInEffect nNow && (other.nID ≤ alert.nCancel || other.nID ∈ alert.setCancel)

/-- The predefined form of the alert with the reserved nID. -/
def predefined (alert : CAlert) : Bool :=
  alert.nExpiration = maxInt && alert.nCancel = maxInt - 1 && alert.nMinVer = 0 && alert.nMaxVer = maxInt &&
    alert.setSubVer = ∅ && alert.nPriority = maxInt && alert.strStatusBar = urgentStatusBar

section

variable [Hashing]

def getHash (alert : CAlert) : UInt256 := Hashing.Hash alert.vchMsg

variable [AlertKey]

/-- CheckSignature, with the alert of the message; a message that cannot be read ends in an exception
that the caller of ProcessAlert drops with the alert. -/
def checkSignature (vchMsg vchSig : Bytes) : Option CAlert :=
  if AlertKey.verify (Hashing.Hash vchMsg) vchSig then
    (CUnsignedAlert.unserialize vchMsg).map fun read => ⟨read.1, vchMsg, vchSig⟩
  else none

/-- ProcessAlert up to the loops over mapAlerts. -/
def receive (vchMsg vchSig : Bytes) (nNow : Int) : Option CAlert :=
  match checkSignature vchMsg vchSig with
  | none => none
  | some alert =>
      if !alert.isInEffect nNow then none
      else if alert.nID = maxInt ∧ !alert.predefined then none
      else some alert

end

end CAlert

abbrev MapAlerts := Std.ExtTreeMap UInt256 CAlert

/-- The loop that cancels previous alerts and lets expired ones go. -/
def cancelPrevious (mapAlerts : MapAlerts) (alert : CAlert) (nNow : Int) : MapAlerts :=
  mapAlerts.filter fun _ previous => !alert.cancels nNow previous && previous.isInEffect nNow

section

variable [Hashing] [AlertKey]

/-- ProcessAlert at the time `nNow`; notifications are left out. -/
def processAlert (mapAlerts : MapAlerts) (vchMsg vchSig : Bytes) (nNow : Int) : MapAlerts × Bool :=
  match CAlert.receive vchMsg vchSig nNow with
  | none => (mapAlerts, false)
  | some alert =>
      let mapAlerts := cancelPrevious mapAlerts alert nNow
      if mapAlerts.toList.any fun item => item.2.cancels nNow alert then (mapAlerts, false)
      else (mapAlerts.insertIfNew alert.getHash alert, true)

end

/-- An alert that is given to ProcessAlert at some time. -/
structure AlertCall where
  vchMsg : Bytes
  vchSig : Bytes
  nNow : Int

section

variable [Hashing] [AlertKey]

def AlertCall.process (call : AlertCall) (mapAlerts : MapAlerts) : MapAlerts × Bool :=
  processAlert mapAlerts call.vchMsg call.vchSig call.nNow

def runAlerts (mapAlerts : MapAlerts) (calls : List AlertCall) : MapAlerts :=
  calls.foldl (fun mapAlerts call => (call.process mapAlerts).1) mapAlerts

end

/-! ## What the map holds -/

variable {mapAlerts : MapAlerts} {alert : CAlert} {nNow : Int}

/-- Cancelling without regard to the time. -/
def CAlert.Names (alert other : CAlert) : Prop := other.nID ≤ alert.nCancel ∨ other.nID ∈ alert.setCancel

theorem CAlert.cancels_iff {other : CAlert} :
    alert.cancels nNow other = true ↔ nNow < alert.nExpiration ∧ alert.Names other := by
  simp [cancels, isInEffect, Names]

theorem cancelPrevious_iff {hash : UInt256} {kept : CAlert} :
    (cancelPrevious mapAlerts alert nNow)[hash]? = some kept ↔
      mapAlerts[hash]? = some kept ∧ ¬(nNow < alert.nExpiration ∧ alert.Names kept) ∧ nNow < kept.nExpiration := by
  rw [cancelPrevious, Std.ExtTreeMap.getElem?_filter', Option.filter_eq_some_iff, Bool.and_eq_true,
    Bool.not_eq_true', ← Bool.not_eq_true, CAlert.cancels_iff, CAlert.isInEffect, decide_eq_true_eq]

theorem any_cancels {hash : UInt256} {kept : CAlert} (stored : mapAlerts[hash]? = some kept)
    (cancels : kept.cancels nNow alert = true) :
    (mapAlerts.toList.any fun item => item.2.cancels nNow alert) = true :=
  List.any_eq_true.mpr ⟨(hash, kept), Std.ExtTreeMap.mem_toList_iff_getElem?_eq_some.mpr stored, cancels⟩

theorem insertIfNew_iff {hash : UInt256} {kept : CAlert} {key : UInt256} :
    (mapAlerts.insertIfNew key alert)[hash]? = some kept ↔
      mapAlerts[hash]? = some kept ∨ (hash = key ∧ mapAlerts[key]? = none ∧ kept = alert) := by
  rw [lookup_insertIfNew]
  constructor
  · split
    · rename_i new
      rintro ⟨⟩
      exact .inr ⟨new.1, new.2, rfl⟩
    · exact .inl
  · rintro (before | ⟨rfl, new, rfl⟩)
    · rw [if_neg]
      · exact before
      · rintro ⟨rfl, new⟩
        rw [new] at before
        cases before
    · rw [if_pos ⟨rfl, new⟩]

section

variable [Hashing]

/-- Each alert is filed under the hash of its message and has the fields of it, the one with the reserved
nID is in its predefined form, and none names another. -/
structure AlertsSound (mapAlerts : MapAlerts) : Prop where
  filed : ∀ (hash : UInt256) (alert : CAlert), mapAlerts[hash]? = some alert → hash = alert.getHash
  read : ∀ (hash : UInt256) (alert : CAlert), mapAlerts[hash]? = some alert →
    ∃ rest, CUnsignedAlert.unserialize alert.vchMsg = some (alert.toCUnsignedAlert, rest)
  reserved : ∀ (hash : UInt256) (alert : CAlert), mapAlerts[hash]? = some alert →
    alert.nID = maxInt → alert.predefined = true
  peaceful : ∀ (hash : UInt256) (alert : CAlert) (hash' : UInt256) (other : CAlert), mapAlerts[hash]? = some alert → mapAlerts[hash']? = some other →
    hash ≠ hash' → ¬alert.Names other

theorem AlertsSound.empty : AlertsSound ∅ := ⟨by simp, by simp, by simp, by simp⟩

theorem AlertsSound.cancelPrevious (sound : AlertsSound mapAlerts) (alert : CAlert) (nNow : Int) :
    AlertsSound (cancelPrevious mapAlerts alert nNow) where
  filed hash kept stored := sound.filed hash kept (cancelPrevious_iff.mp stored).1
  read hash kept stored := sound.read hash kept (cancelPrevious_iff.mp stored).1
  reserved hash kept stored := sound.reserved hash kept (cancelPrevious_iff.mp stored).1
  peaceful hash kept hash' other stored stored' :=
    sound.peaceful hash kept hash' other (cancelPrevious_iff.mp stored).1 (cancelPrevious_iff.mp stored').1

variable [AlertKey]

/-- An alert that reaches the loops over mapAlerts. -/
structure Admitted (vchMsg : Bytes) (nNow : Int) (alert : CAlert) : Prop where
  message : alert.vchMsg = vchMsg
  read : ∃ rest, CUnsignedAlert.unserialize vchMsg = some (alert.toCUnsignedAlert, rest)
  inEffect : nNow < alert.nExpiration
  predefined : alert.nID = maxInt → alert.predefined = true

/-- What receive takes is signed, in effect, and in its predefined form where its nID is the reserved one. -/
theorem receive_eq_some {vchMsg vchSig : Bytes} (receive : CAlert.receive vchMsg vchSig nNow = some alert) :
    CAlert.checkSignature vchMsg vchSig = some alert ∧ alert.isInEffect nNow = true ∧
      (alert.nID = maxInt → alert.predefined = true) := by
  unfold CAlert.receive at receive
  cases checked : CAlert.checkSignature vchMsg vchSig with
  | none => simp [checked] at receive
  | some read =>
      simp only [checked] at receive
      split at receive
      · cases receive
      · rename_i inEffect
        split at receive
        · cases receive
        · rename_i reserved
          cases receive
          exact ⟨rfl, by simpa using inEffect, fun isMax => by simpa using fun refused => reserved ⟨isMax, refused⟩⟩

theorem admitted_of_admit {vchMsg vchSig : Bytes} (receive : CAlert.receive vchMsg vchSig nNow = some alert) :
    Admitted vchMsg nNow alert := by
  obtain ⟨checked, inEffect, reserved⟩ := receive_eq_some receive
  unfold CAlert.checkSignature at checked
  split at checked
  · obtain ⟨⟨fields, rest⟩, unserialized, rfl⟩ := Option.map_eq_some_iff.mp checked
    exact ⟨rfl, ⟨rest, unserialized⟩, by simpa [CAlert.isInEffect] using inEffect, reserved⟩
  · cases checked

theorem processAlert_admitted (mapAlerts : MapAlerts) {vchMsg vchSig : Bytes}
    (receive : CAlert.receive vchMsg vchSig nNow = some alert) :
    ((∃ (hash : UInt256) (kept : CAlert), (cancelPrevious mapAlerts alert nNow)[hash]? = some kept ∧ kept.cancels nNow alert = true) ∧
        processAlert mapAlerts vchMsg vchSig nNow = (cancelPrevious mapAlerts alert nNow, false)) ∨
      ((∀ (hash : UInt256) (kept : CAlert), (cancelPrevious mapAlerts alert nNow)[hash]? = some kept → ¬kept.Names alert) ∧
        processAlert mapAlerts vchMsg vchSig nNow =
          ((cancelPrevious mapAlerts alert nNow).insertIfNew alert.getHash alert, true)) := by
  simp only [processAlert, receive]
  split
  · rename_i cancelled
    obtain ⟨⟨hash, kept⟩, listed, cancels⟩ := List.any_eq_true.mp cancelled
    exact .inl ⟨⟨hash, kept, Std.ExtTreeMap.mem_toList_iff_getElem?_eq_some.mp listed, cancels⟩, rfl⟩
  · rename_i free
    refine .inr ⟨?_, rfl⟩
    intro hash kept stored names
    have inEffect := (cancelPrevious_iff.mp stored).2.2
    exact free (any_cancels stored (CAlert.cancels_iff.mpr ⟨inEffect, names⟩))

theorem AlertsSound.process (sound : AlertsSound mapAlerts) (call : AlertCall) :
    AlertsSound (call.process mapAlerts).1 := by
  unfold AlertCall.process
  cases receive : CAlert.receive call.vchMsg call.vchSig call.nNow with
  | none =>
      simp only [processAlert, receive]
      exact sound
  | some alert =>
      have admitted := admitted_of_admit receive
      have kept := sound.cancelPrevious alert call.nNow
      rcases processAlert_admitted mapAlerts receive with ⟨-, done⟩ | ⟨free, done⟩
      · rw [done]
        exact kept
      · rw [done]
        constructor
        · intro hash stored inside
          rcases insertIfNew_iff.mp inside with before | ⟨rfl, -, rfl⟩
          · exact kept.filed hash stored before
          · rfl
        · intro hash stored inside
          rcases insertIfNew_iff.mp inside with before | ⟨rfl, -, rfl⟩
          · exact kept.read hash stored before
          · rw [admitted.message]
            exact admitted.read
        · intro hash stored inside
          rcases insertIfNew_iff.mp inside with before | ⟨rfl, -, rfl⟩
          · exact kept.reserved hash stored before
          · exact admitted.predefined
        · intro hash first hash' second inside inside' different
          rcases insertIfNew_iff.mp inside with before | ⟨rfl, -, rfl⟩
          · rcases insertIfNew_iff.mp inside' with before' | ⟨rfl, -, rfl⟩
            · exact kept.peaceful hash first hash' second before before' different
            · exact free hash first before
          · rcases insertIfNew_iff.mp inside' with before' | ⟨rfl, -, rfl⟩
            · intro names
              exact (cancelPrevious_iff.mp before').2.1 ⟨admitted.inEffect, names⟩
            · exact absurd rfl different

theorem AlertsSound.run (sound : AlertsSound mapAlerts) (calls : List AlertCall) :
    AlertsSound (runAlerts mapAlerts calls) := by
  induction calls generalizing mapAlerts with
  | nil => exact sound
  | cons call rest ih => exact ih (sound.process call)

/-! ## The alert with the reserved nID -/

/-- The message is that of an alert with the reserved nID. -/
def Reserved (vchMsg : Bytes) : Prop :=
  ∃ fields rest, CUnsignedAlert.unserialize vchMsg = some (fields, rest) ∧ fields.nID = maxInt

omit [AlertKey] in
def Holds (mapAlerts : MapAlerts) (vchMsg : Bytes) : Prop :=
  ∃ alert : CAlert, mapAlerts[Hashing.Hash vchMsg]? = some alert ∧ alert.vchMsg = vchMsg

/-- The call gives another alert that cancels the one with the reserved nID, or gives it when that one
has expired. -/
def AlertCall.Overrides (call : AlertCall) (vchMsg : Bytes) : Prop :=
  call.vchMsg ≠ vchMsg ∧ ∃ alert, CAlert.receive call.vchMsg call.vchSig call.nNow = some alert ∧
    (maxInt ≤ alert.nCancel ∨ maxInt ∈ alert.setCancel ∨ maxInt ≤ call.nNow)

/-- After each of the calls the alert is in the map, and none accepts an alert with a smaller nID. -/
def KeepsAlert (vchMsg : Bytes) : MapAlerts → List AlertCall → Prop
  | _, [] => True
  | mapAlerts, call :: rest =>
      Holds (call.process mapAlerts).1 vchMsg ∧
        (∀ alert, CAlert.checkSignature call.vchMsg call.vchSig = some alert →
          (call.process mapAlerts).2 = true → maxInt ≤ alert.nID) ∧
        KeepsAlert vchMsg (call.process mapAlerts).1 rest

theorem checkSignature_of_admit {vchMsg vchSig : Bytes} (receive : CAlert.receive vchMsg vchSig nNow = some alert) :
    CAlert.checkSignature vchMsg vchSig = some alert :=
  (receive_eq_some receive).1

omit [AlertKey] in
theorem AlertsSound.reserved_fields (sound : AlertsSound mapAlerts) {vchMsg : Bytes} {hash : UInt256}
    (reserved : Reserved vchMsg) (stored : mapAlerts[hash]? = some alert) (same : alert.vchMsg = vchMsg) :
    alert.nID = maxInt ∧ alert.nCancel = maxInt - 1 ∧ alert.nExpiration = maxInt := by
  obtain ⟨fields, rest, read, isMax⟩ := reserved
  obtain ⟨rest', read'⟩ := sound.read hash alert stored
  rw [same, read] at read'
  have equal : fields = alert.toCUnsignedAlert := by
    injection read' with pair
    exact (Prod.mk.inj pair).1
  rw [equal] at isMax
  have form := sound.reserved hash alert stored isMax
  simp only [CAlert.predefined, Bool.and_eq_true, decide_eq_true_eq] at form
  obtain ⟨⟨⟨⟨⟨⟨expiration, cancel⟩, -⟩, -⟩, -⟩, -⟩, -⟩ := form
  exact ⟨isMax, cancel, expiration⟩

omit [Hashing] [AlertKey] in
theorem survives_iff {final : CAlert} {hash : UInt256} (stored : mapAlerts[hash]? = some final)
    (isMax : final.nID = maxInt) (expiration : final.nExpiration = maxInt) (inEffect : nNow < alert.nExpiration) :
    (cancelPrevious mapAlerts alert nNow)[hash]? = some final ↔
      ¬(maxInt ≤ alert.nCancel ∨ maxInt ∈ alert.setCancel ∨ maxInt ≤ nNow) := by
  rw [cancelPrevious_iff, CAlert.Names, isMax, expiration]
  constructor
  · rintro ⟨-, spared, before⟩ (threshold | member | later)
    · exact spared ⟨inEffect, .inl threshold⟩
    · exact spared ⟨inEffect, .inr member⟩
    · omega
  · intro spared
    refine ⟨stored, fun named => spared ?_, by omega⟩
    rcases named.2 with threshold | member
    · exact .inl threshold
    · exact .inr (.inl member)

theorem process_again (sound : AlertsSound mapAlerts) {vchMsg vchSig : Bytes} (reserved : Reserved vchMsg)
    (holds : Holds mapAlerts vchMsg) (receive : CAlert.receive vchMsg vchSig nNow = some alert) :
    Holds (processAlert mapAlerts vchMsg vchSig nNow).1 vchMsg ∧ alert.nID = maxInt := by
  obtain ⟨final, stored, message⟩ := holds
  obtain ⟨isMax, -, expiration⟩ := sound.reserved_fields reserved stored message
  have admitted := admitted_of_admit receive
  obtain ⟨rest, read⟩ := admitted.read
  obtain ⟨rest', read'⟩ := sound.read _ final stored
  have same : alert.toCUnsignedAlert = final.toCUnsignedAlert := by
    rw [message, read] at read'
    injection read' with pair
    exact (Prod.mk.inj pair).1
  have isMax' : alert.nID = maxInt := by
    rw [← isMax]
    exact congrArg CUnsignedAlert.nID same
  refine ⟨?_, isMax'⟩
  rcases processAlert_admitted mapAlerts receive with ⟨⟨hash, kept, inside, cancels⟩, -⟩ | ⟨-, done⟩
  · exfalso
    obtain ⟨before, spared, -⟩ := cancelPrevious_iff.mp inside
    have names := (CAlert.cancels_iff.mp cancels).2
    rw [CAlert.Names, isMax', ← isMax] at names
    by_cases here : hash = Hashing.Hash vchMsg
    · rw [here, stored] at before
      cases before
      refine spared ⟨admitted.inEffect, ?_⟩
      have cancel := congrArg CUnsignedAlert.nCancel same
      have set := congrArg CUnsignedAlert.setCancel same
      rw [CAlert.Names, cancel, set]
      exact names
    · exact sound.peaceful hash kept _ final before stored here names
  · rw [done]
    have key : alert.getHash = Hashing.Hash vchMsg := congrArg Hashing.Hash admitted.message
    cases kept : (cancelPrevious mapAlerts alert nNow)[alert.getHash]? with
    | none => exact ⟨alert, insertIfNew_iff.mpr (.inr ⟨key.symm, kept, rfl⟩), admitted.message⟩
    | some previous =>
        have before := (cancelPrevious_iff.mp kept).1
        rw [key, stored] at before
        cases before
        exact ⟨final, insertIfNew_iff.mpr (.inl (key ▸ kept)), message⟩

/-- One call keeps the alert exactly when it does not override it. -/
theorem process_keeps (sound : AlertsSound mapAlerts) {vchMsg : Bytes} (reserved : Reserved vchMsg)
    (holds : Holds mapAlerts vchMsg) (call : AlertCall) :
    (Holds (call.process mapAlerts).1 vchMsg ∧
      ∀ alert, CAlert.checkSignature call.vchMsg call.vchSig = some alert →
        (call.process mapAlerts).2 = true → maxInt ≤ alert.nID) ↔ ¬call.Overrides vchMsg := by
  unfold AlertCall.process
  cases receive : CAlert.receive call.vchMsg call.vchSig call.nNow with
  | none =>
      simp only [processAlert, receive, AlertCall.Overrides, reduceCtorEq, false_and, exists_false, and_false,
        not_false_iff, iff_true]
      exact ⟨holds, nofun⟩
  | some alert =>
      have admitted := admitted_of_admit receive
      have checked := checkSignature_of_admit receive
      obtain ⟨final, stored, message⟩ := id holds
      obtain ⟨isMax, cancel, expiration⟩ := sound.reserved_fields reserved stored message
      have survives := survives_iff stored isMax expiration admitted.inEffect
      constructor
      · rintro ⟨⟨after, inside, same⟩, -⟩ ⟨different, alert', receive', overrides⟩
        rw [receive] at receive'
        cases receive'
        have gone : ∀ kept : CAlert,
            (cancelPrevious mapAlerts alert call.nNow)[Hashing.Hash vchMsg]? ≠ some kept := by
          intro kept inside
          have before := (cancelPrevious_iff.mp inside).1
          rw [stored] at before
          cases before
          exact survives.mp inside overrides
        rcases processAlert_admitted mapAlerts receive with ⟨-, done⟩ | ⟨-, done⟩
        · rw [done] at inside
          exact gone after inside
        · rw [done] at inside
          rcases insertIfNew_iff.mp inside with before | ⟨-, -, rfl⟩
          · exact gone after before
          · exact different (admitted.message.symm.trans same)
      · intro keeps
        by_cases same : call.vchMsg = vchMsg
        · subst same
          obtain ⟨holds', isMax'⟩ := process_again sound reserved holds receive
          refine ⟨holds', fun other checked' _ => ?_⟩
          rw [checked] at checked'
          cases checked'
          exact isMax'.ge
        · have inside := survives.mpr fun overrides => keeps ⟨same, alert, receive, overrides⟩
          rcases processAlert_admitted mapAlerts receive with ⟨-, done⟩ | ⟨free, done⟩
          · rw [done]
            exact ⟨⟨final, inside, message⟩, nofun⟩
          · rw [done]
            refine ⟨⟨final, insertIfNew_iff.mpr (.inl inside), message⟩, fun other checked' _ => ?_⟩
            rw [checked] at checked'
            cases checked'
            have unnamed := free _ final inside
            rw [CAlert.Names, cancel] at unnamed
            omega

theorem keepsAlert_iff (sound : AlertsSound mapAlerts) {vchMsg : Bytes} (reserved : Reserved vchMsg)
    (holds : Holds mapAlerts vchMsg) (calls : List AlertCall) :
    KeepsAlert vchMsg mapAlerts calls ↔ ∀ call ∈ calls, ¬call.Overrides vchMsg := by
  induction calls generalizing mapAlerts with
  | nil => simp [KeepsAlert]
  | cons call rest ih =>
      rw [KeepsAlert, List.forall_mem_cons, ← and_assoc, process_keeps sound reserved holds call]
      refine and_congr_right fun keeps => ?_
      have kept := (process_keeps sound reserved holds call).mpr keeps
      exact ih (sound.process call) kept.1

omit [AlertKey] in
def Peaceful (mapAlerts : MapAlerts) : Prop :=
  ∀ (nNow : Int) (hash : UInt256) (alert : CAlert) (hash' : UInt256) (other : CAlert),
    mapAlerts[hash]? = some alert → mapAlerts[hash']? = some other → hash ≠ hash' →
      alert.isInEffect nNow = true → other.isInEffect nNow = true → alert.cancels nNow other = false

/-- After every run no alert in effect cancels another; an accepted alert is in the map, unless one with
another message has its hash; and the one with the reserved nID stays, and keeps those with smaller nIDs
out, exactly as long as no call overrides it. -/
theorem reservedAlert_kept (before : List AlertCall) :
    Peaceful (runAlerts ∅ before) ∧
      (∀ call : AlertCall, (call.process (runAlerts ∅ before)).2 = true →
        (∀ alert : CAlert, (runAlerts ∅ before)[Hashing.Hash call.vchMsg]? = some alert →
          alert.vchMsg = call.vchMsg) →
        Holds (call.process (runAlerts ∅ before)).1 call.vchMsg) ∧
      ∀ (vchMsg : Bytes) (after : List AlertCall), Reserved vchMsg → Holds (runAlerts ∅ before) vchMsg →
        (KeepsAlert vchMsg (runAlerts ∅ before) after ↔ ∀ call ∈ after, ¬call.Overrides vchMsg) := by
  have sound : AlertsSound (runAlerts ∅ before) := AlertsSound.empty.run before
  refine ⟨?_, ?_, fun vchMsg after reserved holds => keepsAlert_iff sound reserved holds after⟩
  · intro nNow hash alert hash' other stored stored' different _ _
    rw [← Bool.not_eq_true, CAlert.cancels_iff]
    exact fun cancels => sound.peaceful hash alert hash' other stored stored' different cancels.2
  · intro call accepted alone
    unfold AlertCall.process at accepted ⊢
    cases receive : CAlert.receive call.vchMsg call.vchSig call.nNow with
    | none => simp [processAlert, receive] at accepted
    | some alert =>
        have admitted := admitted_of_admit receive
        have key : alert.getHash = Hashing.Hash call.vchMsg := congrArg Hashing.Hash admitted.message
        rcases processAlert_admitted (runAlerts ∅ before) receive with ⟨-, done⟩ | ⟨-, done⟩
        · rw [done] at accepted
          cases accepted
        · rw [done]
          cases kept : (cancelPrevious (runAlerts ∅ before) alert call.nNow)[alert.getHash]? with
          | none => exact ⟨alert, insertIfNew_iff.mpr (.inr ⟨key.symm, kept, rfl⟩), admitted.message⟩
          | some previous =>
              rw [key] at kept
              exact ⟨previous, insertIfNew_iff.mpr (.inl kept), alone previous (cancelPrevious_iff.mp kept).1⟩

end

namespace Sample

/-- A key for examples, which verifies every signature. -/
scoped instance alertKey : AlertKey where
  verify _ _ := true

/-- The message of an alert for all versions. -/
def alertMessage (nExpiration nID nCancel nPriority : Nat) (strStatusBar : Bytes) : Bytes :=
  littleEndian 4 1 ++ littleEndian 8 0 ++ littleEndian 8 nExpiration ++ littleEndian 4 nID ++ littleEndian 4 nCancel ++
    [0] ++ littleEndian 4 0 ++ littleEndian 4 2147483647 ++ [0] ++ littleEndian 4 nPriority ++ [0] ++
    (UInt8.ofNat strStatusBar.length :: strStatusBar) ++ [0]

def reservedMessage : Bytes := alertMessage 2147483647 2147483647 2147483646 2147483647 urgentStatusBar

def overridingMessage : Bytes := alertMessage 2000000000 1 2147483647 5000 []

end Sample

open Sample

/-- An alert with a smaller nID that cancels up to the reserved nID is accepted and removes the alert
with that one. -/
theorem reservedAlert_overridden :
    let accepted := processAlert ∅ reservedMessage [] 1400000000
    let overridden := processAlert accepted.1 overridingMessage [] 1400000100
    accepted.2 = true ∧ (accepted.1.toList.map fun item => item.2.vchMsg) = [reservedMessage] ∧
      overridden.2 = true ∧ (overridden.1.toList.map fun item => (item.2.vchMsg, item.2.nID)) =
        [(overridingMessage, 1)] := by
  decide +kernel

end BitCrystal
