import BitCrystal.Data.PrefixCode
import BitCrystal.TransactionSerialize

namespace BitCrystal

open Data

/-! # What a signature commits to

SignatureHash of script.cpp hashes a copy of the transaction in which the parts
that the hash type leaves open are blanked, and the serialization of that copy
determines everything that is left. -/

namespace CScript

/-- The loop of FindAndDelete at position `pc`, with at most `room` bytes left;
what is before `pc` stays. -/
def findAndDeleteLoop (b : Bytes) : Nat → Bytes → Bytes
  | 0, pc => pc
  | room + 1, pc =>
      if b.isPrefixOf pc then findAndDeleteLoop b room (pc.drop b.length)
      else
        match getOp pc with
        | none => pc
        | some (_, _, next) =>
            pc.take (pc.length - next.length) ++ findAndDeleteLoop b room next

def findAndDelete (script : CScript) (b : Bytes) : CScript :=
  if b = [] then script else findAndDeleteLoop b script.length script

theorem pushOperand_length {opcode : UInt8} {width : Nat} {pc : Bytes}
    {found : UInt8 × Bytes × Bytes} (push : pushOperand opcode width pc = some found) :
    found.2.2.length ≤ pc.length := by
  simp only [pushOperand, Option.ite_none_left_eq_some, Option.some.injEq] at push
  obtain ⟨_, _, rfl⟩ := push
  simp only [List.length_drop]
  omega

theorem getOp_length {pc data next : Bytes} {opcode : UInt8}
    (found : getOp pc = some (opcode, data, next)) : next.length < pc.length := by
  cases pc with
  | nil => simp [getOp] at found
  | cons first rest =>
      simp only [getOp] at found
      rw [List.length_cons, Nat.lt_succ_iff]
      split_ifs at found
      · cases found
        simp
      · exact pushOperand_length found
      · exact pushOperand_length found
      · exact pushOperand_length found
      · cases found
        exact Nat.le_refl _

theorem findAndDeleteLoop_length_le (b : Bytes) (room : Nat) (pc : Bytes) :
    (findAndDeleteLoop b room pc).length ≤ pc.length := by
  induction room generalizing pc with
  | zero => exact Nat.le_refl _
  | succ room ih =>
      simp only [findAndDeleteLoop]
      split
      · exact Nat.le_trans (ih _) (by simp)
      · cases found : getOp pc with
        | none => exact Nat.le_refl _
        | some step =>
            obtain ⟨opcode, data, next⟩ := step
            have shorter := getOp_length found
            have rest := ih next
            simp only [List.length_append, List.length_take]
            omega

theorem findAndDelete_length_le (script : CScript) (b : Bytes) :
    (script.findAndDelete b).length ≤ script.length := by
  unfold findAndDelete
  split
  · exact Nat.le_refl _
  · exact findAndDeleteLoop_length_le b script.length script

end CScript

def SIGHASH_ALL : Int32 := 1
def SIGHASH_NONE : Int32 := 2
def SIGHASH_SINGLE : Int32 := 3
def SIGHASH_ANYONECANPAY : Int32 := 0x80

/-! ## The copy that is hashed -/

/-- Blank out other inputs' signatures. -/
def blankScripts (nIn : Nat) (scriptCode : CScript) (vin : List CTxIn) : List CTxIn :=
  vin.mapIdx fun i txin => { txin with scriptSig := if i = nIn then scriptCode else [] }

/-- Let the others update at will. -/
def blankSequences (nIn : Nat) (vin : List CTxIn) : List CTxIn :=
  vin.mapIdx fun i txin => if i = nIn then txin else { txin with nSequence := 0 }

/-- Only lock-in the txout payee at index `nOut`. -/
def blankOutputs (nOut : Nat) (vout : List CTxOut) : List CTxOut :=
  (vout.take (nOut + 1)).mapIdx fun i txout => if i < nOut then CTxOut.null else txout

/-- The arguments of SignatureHash but for the hash type. -/
structure SignedInput where
  scriptCode : CScript
  txTo : CTransaction
  nIn : Nat
deriving DecidableEq

namespace SignedInput

/-- The scriptCode without its OP_CODESEPARATORs. -/
def code (signed : SignedInput) : CScript :=
  signed.scriptCode.findAndDelete [CScript.OP_CODESEPARATOR]

/-- The vectors of `txTmp` before ANYONECANPAY, or nothing where SignatureHash returns 1. -/
def blanked (nHashType : Int32) (signed : SignedInput) : Option (List CTxIn × List CTxOut) :=
  let { scriptCode := _, txTo, nIn } := signed
  if txTo.vin.length ≤ nIn then none
  else
    let vin := blankScripts nIn signed.code txTo.vin
    if nHashType &&& 0x1f = SIGHASH_NONE then some (blankSequences nIn vin, [])
    else if nHashType &&& 0x1f = SIGHASH_SINGLE then
      if txTo.vout.length ≤ nIn then none
      else some (blankSequences nIn vin, blankOutputs nIn txTo.vout)
    else some (vin, txTo.vout)

/-- `txTmp` of SignatureHash; `vin[0] = vin[nIn]` and a resize leave the one input. -/
def txTmp (nHashType : Int32) (signed : SignedInput) : Option CTransaction :=
  (signed.blanked nHashType).map fun (vin, vout) =>
    if nHashType &&& SIGHASH_ANYONECANPAY ≠ 0 then
      { signed.txTo with vin := (vin.drop signed.nIn).take 1, vout }
    else { signed.txTo with vin, vout }

/-- The bytes that SignatureHash hashes, unless it returns 1. -/
def preimage (nHashType : Int32) (signed : SignedInput) : Option Bytes :=
  (signed.txTmp nHashType).map fun txTmp =>
    txTmp.serialize ++ littleEndian 4 nHashType.toUInt32.toNat

end SignedInput

def signatureHash [Hashing] (scriptCode : CScript) (txTo : CTransaction) (nIn : Nat)
    (nHashType : Int32) : UInt256 :=
  match SignedInput.preimage nHashType ⟨scriptCode, txTo, nIn⟩ with
  | none => 1
  | some bytes => Hashing.Hash bytes

/-! ## The serialization is injective -/

theorem writeCompactSize_prefixCode : PrefixCode (· < 2 ^ 64) writeCompactSize :=
  .of_reads fun _ bounded => readSize_reads bounded

theorem uint32_prefixCode :
    PrefixCode (fun _ : UInt32 => True) fun n => littleEndian 4 n.toNat :=
  .littleEndian 4 (fun _ _ same => UInt32.toNat_inj.mp same) fun n => n.toNat_lt

theorem int32_prefixCode :
    PrefixCode (fun _ : Int32 => True) fun n => littleEndian 4 n.toUInt32.toNat :=
  .littleEndian 4 (fun _ _ same =>
      Function.LeftInverse.injective Int32.toInt32_toUInt32 (UInt32.toNat_inj.mp same))
    fun n => n.toUInt32.toNat_lt

theorem int64_prefixCode :
    PrefixCode (fun _ : Int64 => True) fun n => littleEndian 8 n.toUInt64.toNat :=
  .littleEndian 8 (fun _ _ same =>
      Function.LeftInverse.injective Int64.toInt64_toUInt64 (UInt64.toNat_inj.mp same))
    fun n => n.toUInt64.toNat_lt

theorem bytes_prefixCode : PrefixCode (fun data : Bytes => data.length < 2 ^ 64)
    fun data => writeCompactSize data.length ++ data :=
  writeCompactSize_prefixCode.countedBytes

theorem COutPoint.prefixCode : PrefixCode (fun _ => True) COutPoint.serialize :=
  .of_reads fun outpoint _ => outpoint.reads

theorem CTxIn.prefixCode :
    PrefixCode (fun txin : CTxIn => txin.scriptSig.length < 2 ^ 64) CTxIn.serialize := by
  intro a b r s aBounded bBounded same
  simp only [serialize, List.append_assoc (_ ++ _), List.append_assoc a.prevout.serialize,
    List.append_assoc b.prevout.serialize] at same
  have prevout := COutPoint.prefixCode trivial trivial same
  have scriptSig := bytes_prefixCode aBounded bBounded prevout.2
  have nSequence := uint32_prefixCode trivial trivial scriptSig.2
  cases a
  cases b
  exact ⟨by simp_all, nSequence.2⟩

theorem CTxOut.prefixCode :
    PrefixCode (fun txout : CTxOut => txout.scriptPubKey.length < 2 ^ 64) CTxOut.serialize := by
  intro a b r s aBounded bBounded same
  rw [serialize, serialize, List.append_assoc (littleEndian 8 _),
    List.append_assoc (littleEndian 8 _)] at same
  have nValue := int64_prefixCode trivial trivial same
  have scriptPubKey := bytes_prefixCode aBounded bBounded nValue.2
  cases a
  cases b
  exact ⟨by simp_all, scriptPubKey.2⟩

namespace CTransaction

/-- The lengths of the vectors and the string are of type `size_t`. -/
structure Counted (tx : CTransaction) : Prop where
  vin : tx.vin.length < 2 ^ 64
  scriptSigs : ∀ txin ∈ tx.vin, txin.scriptSig.length < 2 ^ 64
  vout : tx.vout.length < 2 ^ 64
  scriptPubKeys : ∀ txout ∈ tx.vout, txout.scriptPubKey.length < 2 ^ 64
  strTxComment : tx.strTxComment.length < 2 ^ 64

theorem onWire_eq_iff {a b : CTransaction} : a.onWire = b.onWire ↔
    a.nVersion = b.nVersion ∧ a.vin = b.vin ∧ a.vout = b.vout ∧ a.nLockTime = b.nLockTime ∧
      (TXCOMMENT_VERSION ≤ a.nVersion → a.strTxComment = b.strTxComment) := by
  cases a with
  | mk aVersion =>
      cases b with
      | mk bVersion =>
          by_cases version : aVersion = bVersion
          · subst version
            simp only [onWire]
            split_ifs <;> simp_all
          · have differ : aVersion ≠ bVersion := version
            simp only [onWire]
            split_ifs <;> simp_all

theorem serialize_onWire (tx : CTransaction) : tx.onWire.serialize = tx.serialize := by
  unfold onWire
  split
  · rfl
  · rename_i old
    simp only [serialize, if_neg old]

theorem onWire_eq_of_serialize {a b : CTransaction} {r s : Bytes} (aCounted : a.Counted)
    (bCounted : b.Counted) (same : a.serialize ++ r = b.serialize ++ s) :
    a.onWire = b.onWire ∧ r = s := by
  have inputs := writeCompactSize_prefixCode.counted CTxIn.prefixCode
  have outputs := writeCompactSize_prefixCode.counted CTxOut.prefixCode
  simp only [serialize, List.append_assoc] at same
  have nVersion := int32_prefixCode trivial trivial same
  rw [← List.append_assoc, ← List.append_assoc (writeCompactSize b.vin.length)] at nVersion
  have vin := inputs ⟨aCounted.vin, aCounted.scriptSigs⟩ ⟨bCounted.vin, bCounted.scriptSigs⟩
    nVersion.2
  rw [← List.append_assoc, ← List.append_assoc (writeCompactSize b.vout.length)] at vin
  have vout := outputs ⟨aCounted.vout, aCounted.scriptPubKeys⟩
    ⟨bCounted.vout, bCounted.scriptPubKeys⟩ vin.2
  have nLockTime := uint32_prefixCode trivial trivial vout.2
  have rest := nLockTime.2
  rw [onWire_eq_iff, ← nVersion.1]
  by_cases written : TXCOMMENT_VERSION ≤ a.nVersion
  · rw [← nVersion.1, if_pos written, if_pos written] at rest
    have strTxComment := bytes_prefixCode aCounted.strTxComment bCounted.strTxComment rest
    exact ⟨⟨rfl, vin.1, vout.1, nLockTime.1, fun _ => strTxComment.1⟩, strTxComment.2⟩
  · rw [← nVersion.1, if_neg written, if_neg written] at rest
    exact ⟨⟨rfl, vin.1, vout.1, nLockTime.1, fun newer => absurd newer written⟩, rest⟩

end CTransaction

/-! ## What is committed -/

/-- A list that differs from `blank` in one place at most. -/
def placed {α : Type} (blank : α) (length place : Nat) (value : α) : List α :=
  (List.replicate length blank).set place value

theorem getElem?_placed {α : Type} {blank value : α} {length place i : Nat} :
    (placed blank length place value)[i]? =
      if i < length then some (if i = place then value else blank) else none := by
  simp only [placed, List.getElem?_set, List.getElem?_replicate, List.length_replicate]
  by_cases same : place = i
  · subst same
    simp
  · have other : i ≠ place := fun equal => same equal.symm
    simp [same, other]

theorem placed_eq_iff {α : Type} {blank a b : α} {length m n : Nat} (mInside : m < length)
    (nInside : n < length) :
    placed blank length m a = placed blank length n b ↔ a = b ∧ (m = n ∨ a = blank) := by
  constructor
  · intro same
    have atM := congrArg (fun values => values[m]?) same
    have atN := congrArg (fun values => values[n]?) same
    simp only [getElem?_placed, if_pos mInside, if_pos nInside, Option.some.injEq, if_true] at atM atN
    by_cases equal : m = n
    · rw [if_pos equal] at atM
      exact ⟨atM, Or.inl equal⟩
    · have other : n ≠ m := fun same => equal same.symm
      rw [if_neg equal] at atM
      rw [if_neg other] at atN
      exact ⟨atM.trans atN, Or.inr atM⟩
  · intro ⟨values, places⟩
    subst values
    cases places with
    | inl same => rw [same]
    | inr same =>
        rw [same, placed, placed, List.set_replicate_self, List.set_replicate_self]

theorem CTxIn.list_eq_iff {xs ys : List CTxIn} : xs = ys ↔
    xs.map prevout = ys.map prevout ∧ xs.map scriptSig = ys.map scriptSig ∧
      xs.map nSequence = ys.map nSequence := by
  constructor
  · intro same
    rw [same]
    exact ⟨rfl, rfl, rfl⟩
  · intro ⟨prevouts, scriptSigs, nSequences⟩
    induction xs generalizing ys with
    | nil => exact (List.map_eq_nil_iff.mp prevouts.symm).symm
    | cons x xs ih =>
        cases ys with
        | nil => simp at prevouts
        | cons y ys =>
            simp only [List.map_cons, List.cons.injEq] at prevouts scriptSigs nSequences
            have head : x = y := by
              cases x
              cases y
              simp_all
            rw [head, ih prevouts.2 scriptSigs.2 nSequences.2]

/-- What a hash type commits to. -/
@[ext] structure Commitment where
  nVersion : Int32
  prevouts : List COutPoint
  code : CScript
  nSequences : List UInt32
  vout : List CTxOut
  nLockTime : UInt32
  strTxComment : Option Bytes
  nIn : Option Nat
deriving DecidableEq

namespace SignedInput

def anyoneCanPay (nHashType : Int32) : Bool :=
  nHashType &&& SIGHASH_ANYONECANPAY ≠ 0

def isNone (nHashType : Int32) : Bool :=
  nHashType &&& 0x1f = SIGHASH_NONE

def isSingle (nHashType : Int32) : Bool :=
  nHashType &&& 0x1f = SIGHASH_SINGLE

def own (signed : SignedInput) : List CTxIn :=
  signed.txTo.vin[signed.nIn]?.toList

/-- The index of the input shows in the number of the outputs, or in the place of
something that is not blank. -/
def indexShows (nHashType : Int32) (signed : SignedInput) : Bool :=
  isSingle nHashType ||
    !anyoneCanPay nHashType &&
      (signed.code ≠ [] || isNone nHashType && signed.own.any fun txin => txin.nSequence ≠ 0)

def committed (nHashType : Int32) (signed : SignedInput) : Commitment where
  nVersion := signed.txTo.nVersion
  prevouts := (if anyoneCanPay nHashType then signed.own else signed.txTo.vin).map CTxIn.prevout
  code := signed.code
  nSequences :=
    (if anyoneCanPay nHashType || isNone nHashType || isSingle nHashType then signed.own
      else signed.txTo.vin).map CTxIn.nSequence
  vout :=
    if isNone nHashType then []
    else if isSingle nHashType then signed.txTo.vout[signed.nIn]?.toList
    else signed.txTo.vout
  nLockTime := signed.txTo.nLockTime
  strTxComment :=
    if CTransaction.TXCOMMENT_VERSION ≤ signed.txTo.nVersion then some signed.txTo.strTxComment
    else none
  nIn := if indexShows nHashType signed then some signed.nIn else none

/-- What the copy has for its inputs and outputs before ANYONECANPAY. -/
structure Blanked (nHashType : Int32) (signed : SignedInput) (vin : List CTxIn)
    (vout : List CTxOut) : Prop where
  inside : signed.nIn < signed.txTo.vin.length
  prevouts : vin.map CTxIn.prevout = signed.txTo.vin.map CTxIn.prevout
  scriptSigs : vin.map CTxIn.scriptSig = placed [] signed.txTo.vin.length signed.nIn signed.code
  nSequences : vin.map CTxIn.nSequence =
    if isNone nHashType || isSingle nHashType then
      placed 0 signed.txTo.vin.length signed.nIn signed.txTo.vin[signed.nIn].nSequence
    else signed.txTo.vin.map CTxIn.nSequence
  payee : isSingle nHashType → signed.nIn < signed.txTo.vout.length
  vout : vout =
    if isNone nHashType then []
    else if isSingle nHashType then blankOutputs signed.nIn signed.txTo.vout
    else signed.txTo.vout

theorem blankScripts_scriptSigs (nIn : Nat) (scriptCode : CScript) (vin : List CTxIn) :
    (blankScripts nIn scriptCode vin).map CTxIn.scriptSig = placed [] vin.length nIn scriptCode := by
  refine List.ext_getElem? fun i => ?_
  simp only [blankScripts, List.getElem?_map, List.getElem?_mapIdx, getElem?_placed]
  by_cases inside : i < vin.length
  · simp [inside]
  · simp [inside]

theorem blankSequences_nSequences {nIn : Nat} {vin : List CTxIn} (inside : nIn < vin.length) :
    (blankSequences nIn vin).map CTxIn.nSequence =
      placed 0 vin.length nIn vin[nIn].nSequence := by
  refine List.ext_getElem? fun i => ?_
  simp only [blankSequences, List.getElem?_map, List.getElem?_mapIdx, getElem?_placed]
  by_cases also : i < vin.length
  · by_cases own : i = nIn
    · subst own
      simp [inside]
    · simp [also, own]
  · simp [also]

theorem map_mapIdx_of_eq {α β : Type} {field : α → β} {change : Nat → α → α} {values : List α}
    (kept : ∀ i value, field (change i value) = field value) :
    (values.mapIdx change).map field = values.map field := by
  refine List.ext_getElem? fun i => ?_
  simp [kept, Function.comp_def]

theorem blankScripts_prevouts (nIn : Nat) (scriptCode : CScript) (vin : List CTxIn) :
    (blankScripts nIn scriptCode vin).map CTxIn.prevout = vin.map CTxIn.prevout :=
  map_mapIdx_of_eq fun _ _ => rfl

theorem blankScripts_nSequences (nIn : Nat) (scriptCode : CScript) (vin : List CTxIn) :
    (blankScripts nIn scriptCode vin).map CTxIn.nSequence = vin.map CTxIn.nSequence :=
  map_mapIdx_of_eq fun _ _ => rfl

theorem blankSequences_prevouts (nIn : Nat) (vin : List CTxIn) :
    (blankSequences nIn vin).map CTxIn.prevout = vin.map CTxIn.prevout :=
  map_mapIdx_of_eq fun i txin => by split <;> rfl

theorem blankSequences_scriptSigs (nIn : Nat) (vin : List CTxIn) :
    (blankSequences nIn vin).map CTxIn.scriptSig = vin.map CTxIn.scriptSig :=
  map_mapIdx_of_eq fun i txin => by split <;> rfl

theorem Blanked.of_blanked {nHashType : Int32} {signed : SignedInput} {vin : List CTxIn}
    {vout : List CTxOut} (run : signed.blanked nHashType = some (vin, vout)) :
    Blanked nHashType signed vin vout := by
  simp only [blanked, Option.ite_none_left_eq_some, Nat.not_le] at run
  obtain ⟨inside, run⟩ := run
  have length : (blankScripts signed.nIn signed.code signed.txTo.vin).length =
      signed.txTo.vin.length := by simp [blankScripts]
  have updated : (blankSequences signed.nIn
      (blankScripts signed.nIn signed.code signed.txTo.vin)).map CTxIn.nSequence =
        placed 0 signed.txTo.vin.length signed.nIn signed.txTo.vin[signed.nIn].nSequence := by
    rw [blankSequences_nSequences (by rw [length]; exact inside)]
    simp [blankScripts]
  by_cases none : nHashType &&& 0x1f = SIGHASH_NONE
  · rw [if_pos none] at run
    have isNone_eq : isNone nHashType = true := by simpa [isNone] using none
    have isSingle_eq : isSingle nHashType = false := by
      simp [isSingle, none, SIGHASH_NONE, SIGHASH_SINGLE]
    cases run
    refine ⟨inside, ?_, ?_, ?_, ?_, ?_⟩
    · rw [blankSequences_prevouts, blankScripts_prevouts]
    · rw [blankSequences_scriptSigs, blankScripts_scriptSigs]
    · simp [isNone_eq, updated]
    · simp [isSingle_eq]
    · simp [isNone_eq]
  · rw [if_neg none] at run
    have isNone_eq : isNone nHashType = false := by simpa [isNone] using none
    by_cases single : nHashType &&& 0x1f = SIGHASH_SINGLE
    · rw [if_pos single, Option.ite_none_left_eq_some, Nat.not_le] at run
      have isSingle_eq : isSingle nHashType = true := by simpa [isSingle] using single
      obtain ⟨payee, run⟩ := run
      cases run
      refine ⟨inside, ?_, ?_, ?_, fun _ => payee, ?_⟩
      · rw [blankSequences_prevouts, blankScripts_prevouts]
      · rw [blankSequences_scriptSigs, blankScripts_scriptSigs]
      · simp [isSingle_eq, updated]
      · simp [isNone_eq, isSingle_eq]
    · rw [if_neg single] at run
      have isSingle_eq : isSingle nHashType = false := by simpa [isSingle] using single
      cases run
      refine ⟨inside, ?_, ?_, ?_, ?_, ?_⟩
      · rw [blankScripts_prevouts]
      · rw [blankScripts_scriptSigs]
      · simp [isNone_eq, isSingle_eq, blankScripts_nSequences]
      · simp [isSingle_eq]
      · simp [isNone_eq, isSingle_eq]

theorem blankOutputs_eq_iff {m n : Nat} {xs ys : List CTxOut} (mInside : m < xs.length)
    (nInside : n < ys.length) :
    blankOutputs m xs = blankOutputs n ys ↔ m = n ∧ xs[m]?.toList = ys[n]?.toList := by
  have shape : ∀ {n : Nat} {ys : List CTxOut} (inside : n < ys.length),
      blankOutputs n ys = List.replicate n CTxOut.null ++ [ys[n]] := by
    intro n ys inside
    refine List.ext_getElem? fun i => ?_
    simp only [blankOutputs, List.getElem?_mapIdx, List.getElem?_take, List.getElem?_append,
      List.length_replicate, List.getElem?_replicate]
    by_cases before : i < n
    · have present : i < ys.length := Nat.lt_trans before inside
      have short : i < n + 1 := by omega
      simp [before, present, short]
    · by_cases own : i = n
      · subst own
        simp [inside]
      · have beyond : ¬ i < n + 1 := by omega
        have position : i - n ≠ 0 := by omega
        simp [before, beyond, position]
  rw [shape mInside, shape nInside, List.getElem?_eq_getElem mInside, List.getElem?_eq_getElem nInside]
  constructor
  · intro same
    have lengths := congrArg List.length same
    simp only [List.length_append, List.length_replicate, List.length_singleton] at lengths
    have index : m = n := by omega
    subst index
    simpa using same
  · intro ⟨index, payee⟩
    subst index
    simpa using payee

theorem isolated_map {β : Type} {field : CTxIn → β} {signed : SignedInput} {vin : List CTxIn}
    (kept : vin.map field = signed.txTo.vin.map field) :
    ((vin.drop signed.nIn).take 1).map field = signed.own.map field := by
  rw [List.map_take, List.map_drop, kept, ← List.map_drop, ← List.map_take, own]
  cases found : signed.txTo.vin[signed.nIn]? with
  | none => simp [List.getElem?_eq_none_iff.mp found]
  | some txin =>
      obtain ⟨inside, value⟩ := List.getElem?_eq_some_iff.mp found
      rw [List.drop_eq_getElem_cons inside, value]
      simp

theorem isolated_placed {α : Type} {blank value : α} {length place : Nat} (inside : place < length) :
    ((placed blank length place value).drop place).take 1 = [value] := by
  refine List.ext_getElem? fun i => ?_
  simp only [List.getElem?_take, List.getElem?_drop, getElem?_placed]
  cases i with
  | zero => simp [inside]
  | succ i => simp

theorem own_eq {signed : SignedInput} (inside : signed.nIn < signed.txTo.vin.length) :
    signed.own = [signed.txTo.vin[signed.nIn]] := by
  simp [own, List.getElem?_eq_getElem inside]

namespace Blanked

variable {nHashType : Int32} {signed a b : SignedInput} {vin aVin bVin : List CTxIn}
  {vout aVout bVout : List CTxOut}

theorem isolated (blanked : Blanked nHashType signed vin vout) :
    ((vin.drop signed.nIn).take 1).map CTxIn.prevout = signed.own.map CTxIn.prevout ∧
      ((vin.drop signed.nIn).take 1).map CTxIn.scriptSig = [signed.code] ∧
      ((vin.drop signed.nIn).take 1).map CTxIn.nSequence = signed.own.map CTxIn.nSequence := by
  refine ⟨isolated_map blanked.prevouts, ?_, ?_⟩
  · rw [List.map_take, List.map_drop, blanked.scriptSigs, isolated_placed blanked.inside]
  · have nSequences := blanked.nSequences
    split at nSequences
    · rw [List.map_take, List.map_drop, nSequences, isolated_placed blanked.inside,
        own_eq blanked.inside]
      rfl
    · exact isolated_map nSequences

theorem nIn_eq_iff (code : a.code = b.code)
    (nSequence : isNone nHashType → a.own.map CTxIn.nSequence = b.own.map CTxIn.nSequence) :
    (committed nHashType a).nIn = (committed nHashType b).nIn ↔
      (indexShows nHashType a = true → a.nIn = b.nIn) := by
  have alike : indexShows nHashType a = indexShows nHashType b := by
    have zero : ∀ signed : SignedInput, (signed.own.any fun txin => txin.nSequence ≠ 0) =
        (signed.own.map CTxIn.nSequence).any fun nSequence => nSequence ≠ 0 := by
      intro signed
      rw [List.any_map]
      rfl
    simp only [indexShows, code, zero]
    cases isNone_eq : isNone nHashType with
    | false => simp
    | true => rw [nSequence isNone_eq]
  simp only [committed, alike]
  cases indexShows nHashType b with
  | false => simp
  | true => simp

theorem together_iff (aBlanked : Blanked nHashType a aVin aVout)
    (bBlanked : Blanked nHashType b bVin bVout) :
    aVin = bVin ↔ a.txTo.vin.map CTxIn.prevout = b.txTo.vin.map CTxIn.prevout ∧
      (a.code = b.code ∧ (a.nIn = b.nIn ∨ a.code = [])) ∧
      if isNone nHashType || isSingle nHashType then
        a.own.map CTxIn.nSequence = b.own.map CTxIn.nSequence ∧
          (a.nIn = b.nIn ∨ a.own.map CTxIn.nSequence = [0])
      else a.txTo.vin.map CTxIn.nSequence = b.txTo.vin.map CTxIn.nSequence := by
  rw [CTxIn.list_eq_iff, aBlanked.prevouts, bBlanked.prevouts]
  refine and_congr_right fun prevouts => ?_
  have length : b.txTo.vin.length = a.txTo.vin.length := by
    simpa using (congrArg List.length prevouts).symm
  have bInside : b.nIn < a.txTo.vin.length := length ▸ bBlanked.inside
  rw [aBlanked.scriptSigs, bBlanked.scriptSigs, length, placed_eq_iff aBlanked.inside bInside]
  refine and_congr_right fun _ => ?_
  rw [aBlanked.nSequences, bBlanked.nSequences]
  cases isNone nHashType || isSingle nHashType with
  | true =>
      rw [if_pos rfl, if_pos rfl, if_pos rfl, own_eq aBlanked.inside, own_eq bBlanked.inside, length,
        placed_eq_iff aBlanked.inside bInside]
      simp
  | false => simp

/-- The inputs of two copies are the same when the prevouts, the code, the sequence
numbers and the place are. -/
theorem inputs_eq_iff (aBlanked : Blanked nHashType a aVin aVout)
    (bBlanked : Blanked nHashType b bVin bVout) (payees : isSingle nHashType → a.nIn = b.nIn) :
    (if anyoneCanPay nHashType then (aVin.drop a.nIn).take 1 else aVin) =
      (if anyoneCanPay nHashType then (bVin.drop b.nIn).take 1 else bVin) ↔
      (committed nHashType a).prevouts = (committed nHashType b).prevouts ∧ a.code = b.code ∧
        (committed nHashType a).nSequences = (committed nHashType b).nSequences ∧
        (committed nHashType a).nIn = (committed nHashType b).nIn := by
  cases acp : anyoneCanPay nHashType with
  | true =>
      have aIsolated := aBlanked.isolated
      have bIsolated := bBlanked.isolated
      rw [if_pos rfl, if_pos rfl, CTxIn.list_eq_iff, aIsolated.1, aIsolated.2.1, aIsolated.2.2,
        bIsolated.1, bIsolated.2.1, bIsolated.2.2, List.cons.injEq]
      have prevouts : ∀ signed, (committed nHashType signed).prevouts =
          signed.own.map CTxIn.prevout := by
        simp [committed, acp]
      have nSequences : ∀ signed, (committed nHashType signed).nSequences =
          signed.own.map CTxIn.nSequence := by
        simp [committed, acp]
      rw [prevouts, prevouts, nSequences, nSequences]
      constructor
      · intro ⟨prevout, ⟨code, _⟩, nSequence⟩
        refine ⟨prevout, code, nSequence, (nIn_eq_iff code fun _ => nSequence).mpr fun shows => ?_⟩
        exact payees (by simpa [indexShows, acp] using shows)
      · intro ⟨prevout, code, nSequence, _⟩
        exact ⟨prevout, ⟨code, rfl⟩, nSequence⟩
  | false =>
      have prevouts : ∀ signed, (committed nHashType signed).prevouts =
          signed.txTo.vin.map CTxIn.prevout := by
        simp [committed, acp]
      have zero : (a.own.any fun txin => txin.nSequence ≠ 0) = true ↔
          a.own.map CTxIn.nSequence ≠ [0] := by
        simp [own_eq aBlanked.inside]
      rw [if_neg (by simp), if_neg (by simp), together_iff aBlanked bBlanked, prevouts, prevouts]
      refine and_congr_right fun _ => ?_
      rw [and_assoc]
      refine and_congr_right fun code => ?_
      by_cases updatable : isNone nHashType || isSingle nHashType
      · have nSequences : ∀ signed, (committed nHashType signed).nSequences =
            signed.own.map CTxIn.nSequence := by
          intro signed
          simp only [committed, acp, Bool.false_or, if_pos updatable]
        rw [if_pos updatable, nSequences, nSequences, and_left_comm]
        refine and_congr_right fun nSequence => ?_
        rw [nIn_eq_iff code fun _ => nSequence]
        cases isSingle_eq : isSingle nHashType with
        | true => simp [payees isSingle_eq]
        | false =>
            have isNone_eq : isNone nHashType = true := by simpa [isSingle_eq] using updatable
            simp only [indexShows, isSingle_eq, acp, isNone_eq, Bool.false_or, Bool.not_false,
              Bool.true_and, Bool.or_eq_true, decide_eq_true_eq, zero]
            tauto
      · have nSequences : ∀ signed, (committed nHashType signed).nSequences =
            signed.txTo.vin.map CTxIn.nSequence := by
          intro signed
          simp only [committed, acp, Bool.false_or, if_neg updatable]
        simp only [Bool.or_eq_true, not_or, Bool.not_eq_true] at updatable
        rw [if_neg (by simp [updatable]), nSequences, nSequences, and_comm]
        refine and_congr_right fun _ => ?_
        rw [nIn_eq_iff code fun isNone_eq => by simp [updatable] at isNone_eq]
        simp only [indexShows, updatable, acp, Bool.false_or, Bool.not_false, Bool.false_and,
          Bool.true_and, Bool.or_false, decide_eq_true_eq]
        tauto

/-- The outputs of two copies are the same when the committed ones are; for
SIGHASH_SINGLE their number shows the place. -/
theorem outputs_eq_iff (aBlanked : Blanked nHashType a aVin aVout)
    (bBlanked : Blanked nHashType b bVin bVout) :
    aVout = bVout ↔ (committed nHashType a).vout = (committed nHashType b).vout ∧
      (isSingle nHashType → a.nIn = b.nIn) := by
  rw [aBlanked.vout, bBlanked.vout]
  simp only [committed]
  cases isNone_eq : isNone nHashType with
  | true =>
      have isSingle_eq : isSingle nHashType = false := by
        have none : nHashType &&& 0x1f = SIGHASH_NONE := by simpa [isNone] using isNone_eq
        simp [isSingle, none, SIGHASH_NONE, SIGHASH_SINGLE]
      simp [isSingle_eq]
  | false =>
      cases isSingle_eq : isSingle nHashType with
      | true =>
          simp [blankOutputs_eq_iff (aBlanked.payee isSingle_eq) (bBlanked.payee isSingle_eq), and_comm]
      | false => simp

theorem counted (blanked : Blanked nHashType signed vin vout) (counted : signed.txTo.Counted)
    (scriptCode : signed.scriptCode.length < 2 ^ 64) :
    vin.length < 2 ^ 64 ∧ (∀ txin ∈ vin, txin.scriptSig.length < 2 ^ 64) ∧
      vout.length < 2 ^ 64 ∧ ∀ txout ∈ vout, txout.scriptPubKey.length < 2 ^ 64 := by
  have vinLength : vin.length = signed.txTo.vin.length := by
    simpa using congrArg List.length blanked.prevouts
  refine ⟨by rw [vinLength]; exact counted.vin, ?_, ?_, ?_⟩
  · intro txin member
    have placedSig : txin.scriptSig ∈
        placed [] signed.txTo.vin.length signed.nIn signed.code := by
      rw [← blanked.scriptSigs]
      exact List.mem_map_of_mem member
    cases List.mem_or_eq_of_mem_set placedSig with
    | inl blank => simp [List.eq_of_mem_replicate blank]
    | inr code =>
        rw [code]
        exact Nat.lt_of_le_of_lt (CScript.findAndDelete_length_le _ _) scriptCode
  · have voutLength : vout.length ≤ signed.txTo.vout.length := by
      rw [blanked.vout]
      split_ifs <;> simp [blankOutputs]
    exact Nat.lt_of_le_of_lt voutLength counted.vout
  · have kept : ∀ txout ∈ vout, txout = CTxOut.null ∨ txout ∈ signed.txTo.vout := by
      rw [blanked.vout]
      split_ifs
      · simp
      · intro txout member
        obtain ⟨i, inside, value⟩ := List.mem_mapIdx.mp member
        split at value
        · exact Or.inl value.symm
        · exact Or.inr (value ▸ List.mem_of_mem_take (List.getElem_mem inside))
      · exact fun txout member => Or.inr member
    intro txout member
    cases kept txout member with
    | inl null => simp [null, CTxOut.null]
    | inr own => exact counted.scriptPubKeys txout own

end Blanked

/-- The lengths in the arguments are of type `size_t`. -/
structure Counted (signed : SignedInput) : Prop where
  scriptCode : signed.scriptCode.length < 2 ^ 64
  txTo : signed.txTo.Counted

/-- The copy of a transaction whose blanked inputs and outputs are `vin` and `vout`. -/
structure Copied (nHashType : Int32) (signed : SignedInput) (tmp : CTransaction)
    (vin : List CTxIn) : Prop where
  blanked : Blanked nHashType signed vin tmp.vout
  vin : tmp.vin = if anyoneCanPay nHashType then (vin.drop signed.nIn).take 1 else vin
  nVersion : tmp.nVersion = signed.txTo.nVersion
  nLockTime : tmp.nLockTime = signed.txTo.nLockTime
  strTxComment : tmp.strTxComment = signed.txTo.strTxComment

theorem Copied.of_txTmp {nHashType : Int32} {signed : SignedInput} {tmp : CTransaction}
    (run : signed.txTmp nHashType = some tmp) : ∃ vin, Copied nHashType signed tmp vin := by
  simp only [txTmp, Option.map_eq_some_iff] at run
  obtain ⟨⟨vin, vout⟩, blanked, tmpEq⟩ := run
  subst tmpEq
  refine ⟨vin, ?_⟩
  have isBlanked := Blanked.of_blanked blanked
  by_cases acp : nHashType &&& SIGHASH_ANYONECANPAY ≠ 0
  · rw [if_pos acp]
    exact ⟨isBlanked, by simp [anyoneCanPay, acp], rfl, rfl, rfl⟩
  · rw [if_neg acp]
    exact ⟨isBlanked, by simp [anyoneCanPay, acp], rfl, rfl, rfl⟩

theorem Copied.counted {nHashType : Int32} {signed : SignedInput} {tmp : CTransaction}
    {vin : List CTxIn} (copied : Copied nHashType signed tmp vin) (counted : signed.Counted) :
    tmp.Counted := by
  obtain ⟨vinLength, scriptSigs, vout, scriptPubKeys⟩ :=
    copied.blanked.counted counted.txTo counted.scriptCode
  have inputs : tmp.vin.length ≤ vin.length ∧ ∀ txin ∈ tmp.vin, txin ∈ vin := by
    rw [copied.vin]
    split
    · exact ⟨by simp, fun txin member => List.mem_of_mem_drop (List.mem_of_mem_take member)⟩
    · exact ⟨Nat.le_refl _, fun txin member => member⟩
  refine ⟨Nat.lt_of_le_of_lt inputs.1 vinLength, fun txin member => scriptSigs txin (inputs.2 txin member),
    vout, scriptPubKeys, ?_⟩
  rw [copied.strTxComment]
  exact counted.txTo.strTxComment

theorem Copied.onWire_eq_iff {nHashType : Int32} {a b : SignedInput} {aTmp bTmp : CTransaction}
    {aVin bVin : List CTxIn} (aCopied : Copied nHashType a aTmp aVin)
    (bCopied : Copied nHashType b bTmp bVin) :
    aTmp.onWire = bTmp.onWire ↔ committed nHashType a = committed nHashType b := by
  have outputs := aCopied.blanked.outputs_eq_iff bCopied.blanked
  have inputs := aCopied.blanked.inputs_eq_iff bCopied.blanked
  rw [CTransaction.onWire_eq_iff, aCopied.vin, bCopied.vin, aCopied.nVersion, bCopied.nVersion,
    aCopied.nLockTime, bCopied.nLockTime, aCopied.strTxComment, bCopied.strTxComment]
  have comments : a.txTo.nVersion = b.txTo.nVersion →
      ((committed nHashType a).strTxComment = (committed nHashType b).strTxComment ↔
        (CTransaction.TXCOMMENT_VERSION ≤ a.txTo.nVersion →
          a.txTo.strTxComment = b.txTo.strTxComment)) := by
    intro version
    simp only [committed, version]
    split
    · simp_all
    · simp_all
  constructor
  · intro ⟨nVersion, vin, vout, nLockTime, strTxComment⟩
    obtain ⟨payee, place⟩ := outputs.mp vout
    obtain ⟨prevouts, code, nSequences, nIn⟩ := (inputs place).mp vin
    exact Commitment.ext nVersion prevouts code nSequences payee nLockTime
      ((comments nVersion).mpr strTxComment) nIn
  · intro same
    have nVersion : a.txTo.nVersion = b.txTo.nVersion := congrArg Commitment.nVersion same
    have nIn := congrArg Commitment.nIn same
    have place : isSingle nHashType → a.nIn = b.nIn := by
      intro single
      simpa [committed, indexShows, single] using nIn
    refine ⟨nVersion, (inputs place).mpr ⟨congrArg Commitment.prevouts same,
      congrArg Commitment.code same, congrArg Commitment.nSequences same, nIn⟩,
      outputs.mpr ⟨congrArg Commitment.vout same, place⟩, congrArg Commitment.nLockTime same,
      (comments nVersion).mp (congrArg Commitment.strTxComment same)⟩

/-- Outside the two cases in which SignatureHash returns 1 the hashed bytes are the
same just when the same is committed to. -/
theorem preimage_eq_iff {nHashType : Int32} {a b : SignedInput} {aBytes bBytes : Bytes}
    (aCounted : a.Counted) (bCounted : b.Counted) (aRun : a.preimage nHashType = some aBytes)
    (bRun : b.preimage nHashType = some bBytes) :
    aBytes = bBytes ↔ committed nHashType a = committed nHashType b := by
  simp only [preimage, Option.map_eq_some_iff] at aRun bRun
  obtain ⟨aTmp, aTxTmp, aEq⟩ := aRun
  obtain ⟨bTmp, bTxTmp, bEq⟩ := bRun
  obtain ⟨aVin, aCopied⟩ := Copied.of_txTmp aTxTmp
  obtain ⟨bVin, bCopied⟩ := Copied.of_txTmp bTxTmp
  rw [← aCopied.onWire_eq_iff bCopied, ← aEq, ← bEq]
  constructor
  · intro same
    exact (CTransaction.onWire_eq_of_serialize (aCopied.counted aCounted)
      (bCopied.counted bCounted) same).1
  · intro same
    rw [← aTmp.serialize_onWire, ← bTmp.serialize_onWire, same]

end SignedInput

open SignedInput in
/-- A signature hash commits to the listed parts of its arguments and to nothing else. -/
theorem signatureHash_commits [Hashing] {nHashType : Int32} {a b : SignedInput}
    {aBytes bBytes : Bytes} (aCounted : a.Counted) (bCounted : b.Counted)
    (aRun : a.preimage nHashType = some aBytes) (bRun : b.preimage nHashType = some bBytes) :
    (aBytes = bBytes ↔ committed nHashType a = committed nHashType b) ∧
      (committed nHashType a = committed nHashType b →
        signatureHash a.scriptCode a.txTo a.nIn nHashType =
          signatureHash b.scriptCode b.txTo b.nIn nHashType) := by
  have injective := preimage_eq_iff aCounted bCounted aRun bRun
  refine ⟨injective, fun same => ?_⟩
  simp only [signatureHash, aRun, bRun, injective.mpr same]

namespace Sample

def twoInputs : CTransaction :=
  ⟨1, [⟨⟨7, 0⟩, [], 0xffffffff⟩, ⟨⟨7, 1⟩, [], 0xffffffff⟩], [⟨5, [0x51]⟩], 0, []⟩

def firstInput : SignedInput := ⟨[0xac], twoInputs, 0⟩
def separatedInput : SignedInput := ⟨[0xab, 0xac], { twoInputs with strTxComment := [1] }, 0⟩

end Sample

open Sample SignedInput in
/-- A code separator and an unwritten comment are not committed to. -/
theorem signatureHash_commits_separated :
    signatureHash firstInput.scriptCode firstInput.txTo firstInput.nIn SIGHASH_SINGLE =
      signatureHash separatedInput.scriptCode separatedInput.txTo separatedInput.nIn SIGHASH_SINGLE := by
  have firstRun : ∃ bytes, firstInput.preimage SIGHASH_SINGLE = some bytes :=
    Option.isSome_iff_exists.mp (by decide)
  have separatedRun : ∃ bytes, separatedInput.preimage SIGHASH_SINGLE = some bytes :=
    Option.isSome_iff_exists.mp (by decide)
  obtain ⟨firstBytes, firstRun⟩ := firstRun
  obtain ⟨separatedBytes, separatedRun⟩ := separatedRun
  have firstCounted : firstInput.Counted :=
    ⟨by decide, by decide, by decide, by decide, by decide, by decide⟩
  have separatedCounted : separatedInput.Counted :=
    ⟨by decide, by decide, by decide, by decide, by decide, by decide⟩
  exact (signatureHash_commits firstCounted separatedCounted firstRun separatedRun).2 (by decide)

/-- With SIGHASH_ALL the index of the input is neither always part of what is hashed nor
never: it is not when the script is empty, and it is when the script is not. -/
theorem signatureHash_index :
    (SignedInput.preimage SIGHASH_ALL ⟨[], Sample.twoInputs, 0⟩).isSome = true ∧
      SignedInput.preimage SIGHASH_ALL ⟨[], Sample.twoInputs, 0⟩ =
        SignedInput.preimage SIGHASH_ALL ⟨[], Sample.twoInputs, 1⟩ ∧
      SignedInput.preimage SIGHASH_ALL ⟨[0xac], Sample.twoInputs, 0⟩ ≠
        SignedInput.preimage SIGHASH_ALL ⟨[0xac], Sample.twoInputs, 1⟩ := by
  decide

end BitCrystal
