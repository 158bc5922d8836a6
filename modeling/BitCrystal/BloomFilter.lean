import BitCrystal.Data.Bloom
import BitCrystal.Ownership

namespace BitCrystal

open Data

/-! # Bloom filters of peers -/

/-! ## MurmurHash3 -/

def rotl32 (x : UInt32) (r : UInt32) : UInt32 := (x <<< r) ||| (x >>> (32 - r))

/-- `k1 *= c1; k1 = ROTL32(k1,15); k1 *= c2;` -/
def murmurMix (k1 : UInt32) : UInt32 := rotl32 (k1 * 0xcc9e2d51) 15 * 0x1b873593

def murmurBlocks : UInt32 → Bytes → UInt32 × Bytes
  | h1, b0 :: b1 :: b2 :: b3 :: rest =>
      let k1 := murmurMix (UInt32.ofNat (ofLittleEndian [b0, b1, b2, b3]))
      murmurBlocks (rotl32 (h1 ^^^ k1) 13 * 5 + 0xe6546b64) rest
  | h1, tail => (h1, tail)

/-- Of an empty vector the address of the first element is taken, but nothing is read there. -/
def murmurHash3 (nHashSeed : UInt32) (vDataToHash : Bytes) : UInt32 :=
  let (h1, tail) := murmurBlocks nHashSeed vDataToHash
  let h1 := if tail = [] then h1 else h1 ^^^ murmurMix (UInt32.ofNat (ofLittleEndian tail))
  let h1 := h1 ^^^ UInt32.ofNat vDataToHash.length
  let h1 := (h1 ^^^ (h1 >>> 16)) * 0x85ebca6b
  let h1 := (h1 ^^^ (h1 >>> 13)) * 0xc2b2ae35
  h1 ^^^ (h1 >>> 16)

/-! ## The filter -/

def MAX_BLOOM_FILTER_SIZE : Nat := 36000
def MAX_HASH_FUNCS : Nat := 50
def BLOOM_UPDATE_ALL : UInt8 := 1
def BLOOM_UPDATE_P2PUBKEY_ONLY : UInt8 := 2
def BLOOM_UPDATE_MASK : UInt8 := 3

def bit_mask : List UInt8 := [0x01, 0x02, 0x04, 0x08, 0x10, 0x20, 0x40, 0x80]

structure CBloomFilter where
  vData : Bytes
  nHashFuncs : UInt32
  nTweak : UInt32
  nFlags : UInt8
deriving DecidableEq

namespace CBloomFilter

/-- `vData.size() == 1 && vData[0] == 0xff` -/
def isFull (filter : CBloomFilter) : Bool := filter.vData = [0xff]

/-- The remainder of a division by zero is undefined. -/
def hash (filter : CBloomFilter) (nHashNum : UInt32) (vDataToHash : Bytes) : Except Failure UInt32 :=
  if filter.vData.length * 8 = 0 then .error (.undefined "CBloomFilter::Hash")
  else .ok (UInt32.ofNat ((murmurHash3 (nHashNum * 0xFBA4C795 + filter.nTweak) vDataToHash).toNat %
    (filter.vData.length * 8)))

def bitAt (filter : CBloomFilter) (nIndex : UInt32) : Except Failure (UInt8 × UInt8) := do
  let byte ← expect filter.vData[(nIndex >>> 3).toNat]? (.undefined "CBloomFilter")
  let mask ← expect bit_mask[(7 &&& nIndex).toNat]? (.undefined "CBloomFilter")
  return (byte, mask)

/-- A turn of the loop of insert. -/
def insertBit (vKey : Bytes) (filter : CBloomFilter) (i : Nat) : Except Failure CBloomFilter := do
  let nIndex ← filter.hash (UInt32.ofNat i) vKey
  let (byte, mask) ← filter.bitAt nIndex
  return { filter with vData := filter.vData.set (nIndex >>> 3).toNat (byte ||| mask) }

def insert (filter : CBloomFilter) (vKey : Bytes) : Except Failure CBloomFilter :=
  if filter.isFull then .ok filter
  else (List.range filter.nHashFuncs.toNat).foldlM (insertBit vKey) filter

/-- The loop of contains. -/
def containsBits (filter : CBloomFilter) (vKey : Bytes) : List Nat → Except Failure Bool
  | [] => .ok true
  | i :: rest => do
      let nIndex ← filter.hash (UInt32.ofNat i) vKey
      let (byte, mask) ← filter.bitAt nIndex
      if byte &&& mask = 0 then return false else filter.containsBits vKey rest

def contains (filter : CBloomFilter) (vKey : Bytes) : Except Failure Bool :=
  if filter.isFull then .ok true else filter.containsBits vKey (List.range filter.nHashFuncs.toNat)

def isWithinSizeConstraints (filter : CBloomFilter) : Bool :=
  filter.vData.length ≤ MAX_BLOOM_FILTER_SIZE && filter.nHashFuncs.toNat ≤ MAX_HASH_FUNCS

/-! ## IsRelevantAndUpdate -/

/-- The loop over the data of a script, which every turn shortens: whether the filter has some of them. -/
def matchesData (filter : CBloomFilter) : Nat → CScript → Except Failure Bool
  | 0, _ => .ok false
  | room + 1, pc =>
      match CScript.getOp pc with
      | none => .ok false
      | some (_, data, next) =>
          if data = [] then filter.matchesData room next
          else do
            if ← filter.contains data then return true else filter.matchesData room next

def matchesScript (filter : CBloomFilter) (script : CScript) : Except Failure Bool :=
  filter.matchesData script.length script

/-- Whether the outpoint of an output that matches is inserted. -/
def updatesWith (filter : CBloomFilter) (scriptPubKey : CScript) : Bool :=
  if filter.nFlags &&& BLOOM_UPDATE_MASK = BLOOM_UPDATE_ALL then true
  else if filter.nFlags &&& BLOOM_UPDATE_MASK = BLOOM_UPDATE_P2PUBKEY_ONLY then
    match scriptPubKey.solver with
    | some (.TX_PUBKEY, _) | some (.TX_MULTISIG, _) => true
    | _ => false
  else false

/-- A turn of the loop over the outputs. -/
def relevantOutput (hash : UInt256) (state : CBloomFilter × Bool) (output : CTxOut × Nat) :
    Except Failure (CBloomFilter × Bool) := do
  if ← state.1.matchesScript output.1.scriptPubKey then
    if state.1.updatesWith output.1.scriptPubKey then do
      let filter ← state.1.insert (COutPoint.serialize ⟨hash, UInt32.ofNat output.2⟩)
      return (filter, true)
    else return (state.1, true)
  else return state

/-- The loop over the inputs. -/
def relevantInputs (filter : CBloomFilter) : List CTxIn → Except Failure Bool
  | [] => .ok false
  | txin :: rest => do
      if ← filter.contains txin.prevout.serialize then return true
      else if ← filter.matchesScript txin.scriptSig then return true
      else filter.relevantInputs rest

def isRelevantAndUpdate (filter : CBloomFilter) (tx : CTransaction) (hash : UInt256) :
    Except Failure (CBloomFilter × Bool) := do
  let fFound ← filter.contains (littleEndian 32 hash.toNat)
  let (filter, fFound) ← tx.vout.zipIdx.foldlM (relevantOutput hash) (filter, fFound)
  if fFound then return (filter, true)
  else do
    let fFound ← filter.relevantInputs tx.vin
    return (filter, fFound)

/-! ## The filter as a set of places -/

variable {filter after : CBloomFilter} {key : Bytes}

def place (filter : CBloomFilter) (key : Bytes) (i : Nat) : Nat :=
  (murmurHash3 (UInt32.ofNat i * 0xFBA4C795 + filter.nTweak) key).toNat % (filter.vData.length * 8)

def places (filter : CBloomFilter) (key : Bytes) : Set Nat :=
  { bit | ∃ i < filter.nHashFuncs.toNat, filter.place key i = bit }

/-- The filter has a bit for every hash function, or it has no hash function. -/
def Usable (filter : CBloomFilter) : Prop := filter.vData ≠ [] ∨ filter.nHashFuncs = 0

instance decidableUsable (filter : CBloomFilter) : Decidable filter.Usable :=
  inferInstanceAs (Decidable (filter.vData ≠ [] ∨ filter.nHashFuncs = 0))

/-- The key is reported as contained. -/
def Has (filter : CBloomFilter) (key : Bytes) : Prop := Bloom.Has filter.places (setBits filter.vData) key

/-- Bits are set, and nothing else changes. -/
structure Grows (filter after : CBloomFilter) : Prop where
  length : after.vData.length = filter.vData.length
  nHashFuncs : after.nHashFuncs = filter.nHashFuncs
  nTweak : after.nTweak = filter.nTweak
  nFlags : after.nFlags = filter.nFlags
  bits : setBits filter.vData ⊆ setBits after.vData

namespace Grows

theorem refl (filter : CBloomFilter) : filter.Grows filter := ⟨rfl, rfl, rfl, rfl, subset_rfl⟩

theorem trans {last : CBloomFilter} (first : filter.Grows after) (second : after.Grows last) : filter.Grows last where
  length := second.length.trans first.length
  nHashFuncs := second.nHashFuncs.trans first.nHashFuncs
  nTweak := second.nTweak.trans first.nTweak
  nFlags := second.nFlags.trans first.nFlags
  bits := first.bits.trans second.bits

theorem place_eq (grows : filter.Grows after) : after.place = filter.place := by
  funext key i
  rw [place, place, grows.length, grows.nTweak]

theorem places_eq (grows : filter.Grows after) : after.places = filter.places := by
  funext key
  rw [places, places, grows.place_eq, grows.nHashFuncs]

theorem usable (grows : filter.Grows after) (usable : filter.Usable) : after.Usable := by
  rcases usable with nonempty | none
  · left
    intro empty
    have length := grows.length
    rw [empty, List.length_nil] at length
    exact nonempty (List.eq_nil_of_length_eq_zero length.symm)
  · exact .inr (grows.nHashFuncs.trans none)

theorem has (grows : filter.Grows after) (has : filter.Has key) : after.Has key := by
  unfold Has at *
  rw [grows.places_eq]
  exact has.mono grows.bits

end Grows

theorem place_lt (nonempty : filter.vData ≠ []) (key : Bytes) (i : Nat) :
    filter.place key i < filter.vData.length * 8 := by
  have positive := List.length_pos_of_ne_nil nonempty
  exact Nat.mod_lt _ (by omega)

theorem hash_eq (nonempty : filter.vData ≠ []) (key : Bytes) (i : Nat) :
    ∃ nIndex, filter.hash (UInt32.ofNat i) key = .ok nIndex ∧ nIndex.toNat = filter.place key i := by
  have positive := List.length_pos_of_ne_nil nonempty
  refine ⟨_, if_neg (by omega), ?_⟩
  have value := (murmurHash3 (UInt32.ofNat i * 0xFBA4C795 + filter.nTweak) key).toNat_lt
  have small := Nat.mod_le (murmurHash3 (UInt32.ofNat i * 0xFBA4C795 + filter.nTweak) key).toNat
    (filter.vData.length * 8)
  rw [UInt32.toNat_ofNat', Nat.mod_eq_of_lt (by omega)]
  rfl

theorem bitAt_eq {nIndex : UInt32} (within : nIndex.toNat < filter.vData.length * 8) :
    ∃ byte mask, filter.bitAt nIndex = .ok (byte, mask) ∧ (nIndex >>> 3).toNat = nIndex.toNat / 8 ∧
      filter.vData[nIndex.toNat / 8]? = some byte ∧ mask.toNat = 2 ^ (nIndex.toNat % 8) := by
  have byteIndex : (nIndex >>> 3).toNat = nIndex.toNat / 8 := by
    rw [UInt32.toNat_shiftRight, show (3 : UInt32).toNat % 32 = 3 from rfl, Nat.shiftRight_eq_div_pow]
  have maskIndex : (7 &&& nIndex).toNat = nIndex.toNat % 8 := by
    rw [UInt32.toNat_and, Nat.and_comm]
    exact Nat.and_two_pow_sub_one_eq_mod nIndex.toNat 3
  have inside : nIndex.toNat / 8 < filter.vData.length := by omega
  have masks : ∀ bit < 8, ∃ mask, bit_mask[bit]? = some mask ∧ mask.toNat = 2 ^ bit := by decide
  obtain ⟨mask, listed, single⟩ := masks (nIndex.toNat % 8) (Nat.mod_lt _ (by decide))
  refine ⟨_, mask, ?_, byteIndex, List.getElem?_eq_getElem inside, single⟩
  rw [bitAt, byteIndex, maskIndex, listed, List.getElem?_eq_getElem inside]
  rfl

theorem insertBit_spec (nonempty : filter.vData ≠ []) (key : Bytes) (i : Nat) :
    ∃ after, insertBit key filter i = .ok after ∧ filter.Grows after ∧
      setBits after.vData = Insert.insert (filter.place key i) (setBits filter.vData) := by
  obtain ⟨nIndex, hashed, value⟩ := hash_eq nonempty key i
  have within : nIndex.toNat < filter.vData.length * 8 := value ▸ place_lt nonempty key i
  obtain ⟨byte, mask, found, byteIndex, here, single⟩ := bitAt_eq within
  have bits := setBits_set here single
  refine ⟨{ filter with vData := filter.vData.set (nIndex.toNat / 8) (byte ||| mask) }, ?_, ⟨?_, rfl, rfl, rfl, ?_⟩, ?_⟩
  · rw [insertBit, hashed, ok_bind, found, ok_bind, byteIndex]
    rfl
  · exact List.length_set
  · rw [bits]
    exact Set.subset_insert _ _
  · rw [bits, value]

theorem insertBits_spec (nonempty : filter.vData ≠ []) (key : Bytes) (turns : List Nat) :
    ∃ after, turns.foldlM (insertBit key) filter = .ok after ∧ filter.Grows after ∧
      setBits after.vData = setBits filter.vData ∪ { bit | ∃ i ∈ turns, filter.place key i = bit } := by
  induction turns generalizing filter with
  | nil => exact ⟨filter, rfl, .refl filter, by simp⟩
  | cons i turns ih =>
      obtain ⟨mid, first, grows, bits⟩ := insertBit_spec nonempty key i
      have nonempty' : mid.vData ≠ [] := by
        rw [← List.length_pos_iff, grows.length]
        exact List.length_pos_of_ne_nil nonempty
      obtain ⟨after, others, grows', bits'⟩ := ih nonempty'
      refine ⟨after, by rw [List.foldlM_cons, first, ok_bind, others], grows.trans grows', ?_⟩
      rw [bits', bits, grows.place_eq]
      ext bit
      simp only [Set.mem_union, Set.mem_insert_iff, Set.mem_ofPred_eq, List.mem_cons, exists_eq_or_imp]
      rw [or_comm (a := bit = _), or_assoc, eq_comm]

theorem places_full (full : filter.isFull = true) (key : Bytes) : filter.Has key := by
  have data : filter.vData = [0xff] := by simpa [isFull] using full
  rintro bit ⟨i, _, rfl⟩
  have within := place_lt (show filter.vData ≠ [] by simp [data]) key i
  rw [data] at within ⊢
  exact mem_setBits_full (by simpa using within)

theorem insert_spec (usable : filter.Usable) (key : Bytes) :
    ∃ after, filter.insert key = .ok after ∧ filter.Grows after ∧
      setBits after.vData = setBits filter.vData ∪ filter.places key := by
  unfold CBloomFilter.insert
  split
  case isTrue full =>
    refine ⟨filter, rfl, .refl filter, ?_⟩
    exact (Set.union_eq_self_of_subset_right (places_full full key)).symm
  case isFalse =>
    rcases usable with nonempty | none
    · obtain ⟨after, run, grows, bits⟩ := insertBits_spec nonempty key (List.range filter.nHashFuncs.toNat)
      refine ⟨after, run, grows, bits.trans ?_⟩
      simp only [places, List.mem_range]
    · refine ⟨filter, by rw [none]; rfl, .refl filter, ?_⟩
      simp [places, none]

theorem has_of_insert (usable : filter.Usable) (inserted : filter.insert key = .ok after) :
    filter.Grows after ∧ after.Has key := by
  obtain ⟨result, run, grows, bits⟩ := insert_spec usable key
  obtain rfl : result = after := Except.ok.inj (run.symm.trans inserted)
  refine ⟨grows, ?_⟩
  rw [Has, grows.places_eq, bits]
  exact Bloom.has_insert filter.places (setBits filter.vData) key

theorem containsBits_spec (nonempty : filter.vData ≠ []) (key : Bytes) (turns : List Nat) :
    ∃ answer, filter.containsBits key turns = .ok answer ∧
      (answer = true ↔ ∀ i ∈ turns, filter.place key i ∈ setBits filter.vData) := by
  induction turns with
  | nil => exact ⟨true, rfl, by simp⟩
  | cons i turns ih =>
      obtain ⟨nIndex, hashed, value⟩ := hash_eq nonempty key i
      have within : nIndex.toNat < filter.vData.length * 8 := value ▸ place_lt nonempty key i
      obtain ⟨byte, mask, found, byteIndex, here, single⟩ := bitAt_eq within
      have isSet := mem_setBits_iff here single
      rw [value] at isSet
      rw [containsBits, hashed, ok_bind, found, ok_bind]
      by_cases clear : byte &&& mask = 0
      · refine ⟨false, if_pos clear, ?_⟩
        simp only [Bool.false_eq_true, List.forall_mem_cons, isSet, clear, ne_eq, not_true, false_and]
      · obtain ⟨answer, run, decided⟩ := ih
        refine ⟨answer, (if_neg clear).trans run, ?_⟩
        rw [List.forall_mem_cons, decided, isSet]
        exact ⟨fun others => ⟨clear, others⟩, fun both => both.2⟩

theorem contains_spec (usable : filter.Usable) (key : Bytes) :
    ∃ answer, filter.contains key = .ok answer ∧ (answer = true ↔ filter.Has key) := by
  unfold contains
  split
  case isTrue full => exact ⟨true, rfl, by simp [places_full full key]⟩
  case isFalse =>
    rcases usable with nonempty | none
    · obtain ⟨answer, run, decided⟩ := containsBits_spec nonempty key (List.range filter.nHashFuncs.toNat)
      refine ⟨answer, run, decided.trans ?_⟩
      simp only [Has, Bloom.Has, places, Set.subset_def, Set.mem_ofPred_eq, List.mem_range, forall_exists_index,
        and_imp, forall_apply_eq_imp_iff₂]
    · refine ⟨true, by rw [none]; rfl, ?_⟩
      simp [Has, Bloom.Has, places, none]

theorem Has.contains (has : filter.Has key) (usable : filter.Usable) : filter.contains key = .ok true := by
  obtain ⟨answer, run, decided⟩ := contains_spec usable key
  rw [run, decided.mpr has]

theorem contains_undefined (unusable : ¬ filter.Usable) (key : Bytes) :
    filter.contains key = .error (.undefined "CBloomFilter::Hash") := by
  rw [Usable, not_or, not_not] at unusable
  obtain ⟨empty, some'⟩ := unusable
  have positive : filter.nHashFuncs.toNat ≠ 0 := fun zero => some' (UInt32.toNat_inj.mp zero)
  obtain ⟨turns, count⟩ := Nat.exists_eq_succ_of_ne_zero positive
  have notFull : filter.isFull = false := by simp [isFull, empty]
  rw [contains, notFull, count, List.range_succ_eq_map]
  simp [containsBits, hash, empty]

end CBloomFilter

end BitCrystal
