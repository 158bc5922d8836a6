import BitCrystal.SignatureHash
import Std.Data.ExtTreeSet

namespace BitCrystal

open Data

/-! # The signature cache

An entry stands for a signature that has been verified, so finding it there is as
good as verifying it again. -/

/-- (signature hash, signature, public key). -/
@[ext] structure sigdata_type where
  hash : UInt256
  vchSig : Bytes
  pubKey : Bytes
deriving DecidableEq

namespace sigdata_type

/-- The order of the tuples in `std::set`. -/
instance : Ord sigdata_type :=
  ⟨compareLex (compareOn hash) (compareLex (compareOn vchSig) (compareOn pubKey))⟩

instance : Std.TransOrd sigdata_type :=
  inferInstanceAs (Std.TransCmp
    (compareLex (compareOn hash) (compareLex (compareOn vchSig) (compareOn pubKey))))

instance : Std.LawfulEqOrd sigdata_type where
  eq_of_compare {left right} same := by
    have parts : (compare left.hash right.hash).then
        ((compare left.vchSig right.vchSig).then (compare left.pubKey right.pubKey)) = .eq := same
    rw [Ordering.then_eq_eq, Ordering.then_eq_eq] at parts
    exact sigdata_type.ext (Std.LawfulEqOrd.eq_of_compare parts.1)
      (Std.LawfulEqOrd.eq_of_compare parts.2.1) (Std.LawfulEqOrd.eq_of_compare parts.2.2)

end sigdata_type

abbrev SigSet := Std.ExtTreeSet sigdata_type

namespace CSignatureCache

def get (setValid : SigSet) (hash : UInt256) (vchSig pubKey : Bytes) : Bool :=
  setValid.contains ⟨hash, vchSig, pubKey⟩

/-- `setValid.lower_bound(k)`, or nothing for `setValid.end()`. -/
def lowerBound (setValid : SigSet) (k : sigdata_type) : Option sigdata_type :=
  setValid.toList.find? fun entry => compare entry k ≠ .lt

/-- Evict a random entry; dereferencing `end()` is undefined. -/
def evict (setValid : SigSet) (randomHash : UInt256) : Except Failure SigSet := do
  let it := lowerBound setValid ⟨randomHash, [], []⟩ <|> setValid.toList.head?
  let entry ← expect it (.undefined "setValid.end()")
  return setValid.erase entry

/-- The loop of Set, with the hashes that GetRandHash returns in it. -/
def shrink (nMaxCacheSize : Int) : Nat → (Nat → UInt256) → SigSet → Except Failure SigSet
  | room, random, setValid =>
      if setValid.size ≤ nMaxCacheSize then .ok setValid
      else
        match room with
        | 0 => .error .endless
        | room + 1 => do
            let setValid ← evict setValid (random 0)
            shrink nMaxCacheSize room (fun turn => random (turn + 1)) setValid

/-- `-maxsigcachesize` is `nMaxCacheSize`; no turn of the loop leaves the set as large. -/
def set (nMaxCacheSize : Int) (random : Nat → UInt256) (setValid : SigSet) (hash : UInt256)
    (vchSig pubKey : Bytes) : Except Failure SigSet :=
  if nMaxCacheSize ≤ 0 then .ok setValid
  else do
    let setValid ← shrink nMaxCacheSize setValid.size random setValid
    return setValid.insert ⟨hash, vchSig, pubKey⟩

end CSignatureCache

/-- CKey: whether a public key can be set, and whether it then verifies a signature. -/
class KeyVerification where
  SetPubKey : Bytes → Bool
  Verify : Bytes → UInt256 → Bytes → Bool

/-- A call of CheckSig, with the cache size limit and the randomness it meets. -/
structure CheckSigCall where
  vchSig : Bytes
  vchPubKey : Bytes
  scriptCode : CScript
  txTo : CTransaction
  nIn : Nat
  nHashType : Int32
  flags : UInt32
  nMaxCacheSize : Int
  random : Nat → UInt256

section

variable [Hashing] [KeyVerification]

open KeyVerification

/-- CheckSig: its result and the cache after it. -/
def checkSig (call : CheckSigCall) (cache : SigSet) : Except Failure (Bool × SigSet) :=
  match call.vchSig.getLast? with
  | none => .ok (false, cache)
  | some back =>
      if call.nHashType ≠ 0 ∧ call.nHashType ≠ Int32.ofNat back.toNat then .ok (false, cache)
      else
        let nHashType := if call.nHashType = 0 then Int32.ofNat back.toNat else call.nHashType
        let vchSig := call.vchSig.dropLast
        let sighash := signatureHash call.scriptCode call.txTo call.nIn nHashType
        if CSignatureCache.get cache sighash vchSig call.vchPubKey then .ok (true, cache)
        else if ¬ SetPubKey call.vchPubKey then .ok (false, cache)
        else if ¬ Verify call.vchPubKey sighash vchSig then .ok (false, cache)
        else if call.flags &&& SCRIPT_VERIFY_NOCACHE ≠ 0 then .ok (true, cache)
        else do
          let cache ← CSignatureCache.set call.nMaxCacheSize call.random cache sighash vchSig
            call.vchPubKey
          return (true, cache)

def checkSigs : List CheckSigCall → SigSet → Except Failure (List Bool × SigSet)
  | [], cache => .ok ([], cache)
  | call :: calls, cache => do
      let (fValid, cache) ← checkSig call cache
      let (rest, cache) ← checkSigs calls cache
      return (fValid :: rest, cache)

end

/-! ## Eviction -/

namespace CSignatureCache

variable {setValid : SigSet}

theorem evict_eq_ok (randomHash : UInt256) (nonempty : setValid.size ≠ 0) :
    ∃ entry ∈ setValid, evict setValid randomHash = .ok (setValid.erase entry) := by
  have present : setValid.toList ≠ [] := by
    intro empty
    exact nonempty (by rw [← Std.ExtTreeSet.length_toList, empty]; rfl)
  cases found : lowerBound setValid ⟨randomHash, [], []⟩ with
  | some entry =>
      have member := List.mem_of_find?_eq_some found
      refine ⟨entry, Std.ExtTreeSet.mem_toList.mp member, ?_⟩
      simp [evict, found, expect]
  | none =>
      obtain ⟨entry, rest, list⟩ := List.exists_cons_of_ne_nil present
      have member : entry ∈ setValid.toList := by simp [list]
      refine ⟨entry, Std.ExtTreeSet.mem_toList.mp member, ?_⟩
      simp [evict, found, list, expect]

theorem shrink_eq_ok {nMaxCacheSize : Int} {room : Nat} (positive : 0 < nMaxCacheSize)
    (random : Nat → UInt256) (enough : setValid.size ≤ room) :
    ∃ kept, shrink nMaxCacheSize room random setValid = .ok kept ∧
      (∀ entry ∈ kept, entry ∈ setValid) ∧ kept.size ≤ nMaxCacheSize := by
  induction room generalizing setValid random with
  | zero =>
      have small : (setValid.size : Int) ≤ nMaxCacheSize := by omega
      exact ⟨setValid, by rw [shrink, if_pos small], fun _ member => member, small⟩
  | succ room ih =>
      rw [shrink]
      by_cases small : (setValid.size : Int) ≤ nMaxCacheSize
      · exact ⟨setValid, by rw [if_pos small], fun _ member => member, small⟩
      · obtain ⟨entry, member, evicted⟩ := evict_eq_ok (random 0) (by omega : setValid.size ≠ 0)
        have fewer : (setValid.erase entry).size ≤ room := by
          rw [Std.ExtTreeSet.size_erase, if_pos (Std.ExtTreeSet.mem_iff_contains.mp member)]
          omega
        obtain ⟨kept, run, subset, small'⟩ := ih (fun turn => random (turn + 1)) fewer
        refine ⟨kept, ?_, fun other inside => ?_, small'⟩
        · rw [if_neg small, evicted, ok_bind, run]
        · exact (Std.ExtTreeSet.mem_erase.mp (subset other inside)).2

theorem set_eq_ok (nMaxCacheSize : Int) (random : Nat → UInt256) (setValid : SigSet) (hash : UInt256)
    (vchSig pubKey : Bytes) :
    ∃ after, set nMaxCacheSize random setValid hash vchSig pubKey = .ok after ∧
      ∀ entry ∈ after, entry ∈ setValid ∨ entry = ⟨hash, vchSig, pubKey⟩ := by
  unfold set
  by_cases off : nMaxCacheSize ≤ 0
  · exact ⟨setValid, by rw [if_pos off], fun entry member => Or.inl member⟩
  · obtain ⟨kept, run, subset, _⟩ :=
      shrink_eq_ok (by omega : 0 < nMaxCacheSize) random (Nat.le_refl setValid.size)
    refine ⟨kept.insert ⟨hash, vchSig, pubKey⟩, by rw [if_neg off, run]; rfl, fun entry member => ?_⟩
    cases Std.ExtTreeSet.mem_insert.mp member with
    | inl same => exact Or.inr (Std.LawfulEqOrd.eq_of_compare same).symm
    | inr inside => exact Or.inl (subset entry inside)

end CSignatureCache

/-! ## Transparency -/

section

variable [KeyVerification]

open KeyVerification

/-- Every entry is a signature that verifies under its key. -/
def Sound (cache : SigSet) : Prop :=
  ∀ entry ∈ cache, SetPubKey entry.pubKey = true ∧ Verify entry.pubKey entry.hash entry.vchSig = true

theorem sound_empty : Sound ∅ := by
  intro entry member
  exact absurd member Std.ExtTreeSet.not_mem_empty

variable [Hashing]

/-- What CheckSig decides without a cache. -/
def verdict (call : CheckSigCall) : Bool :=
  match call.vchSig.getLast? with
  | none => false
  | some back =>
      let nHashType := if call.nHashType = 0 then Int32.ofNat back.toNat else call.nHashType
      let sighash := signatureHash call.scriptCode call.txTo call.nIn nHashType
      (call.nHashType = 0 || call.nHashType = Int32.ofNat back.toNat) &&
        SetPubKey call.vchPubKey && Verify call.vchPubKey sighash call.vchSig.dropLast

theorem checkSig_of_sound {cache : SigSet} (call : CheckSigCall) (sound : Sound cache) :
    ∃ after, checkSig call cache = .ok (verdict call, after) ∧ Sound after := by
  unfold checkSig verdict
  cases call.vchSig.getLast? with
  | none => exact ⟨cache, rfl, sound⟩
  | some back =>
      dsimp only
      by_cases other : call.nHashType ≠ 0 ∧ call.nHashType ≠ Int32.ofNat back.toNat
      · exact ⟨cache, by simp [other], sound⟩
      · have same : (call.nHashType = 0 || call.nHashType = Int32.ofNat back.toNat) = true := by
          rw [Bool.or_eq_true, decide_eq_true_eq, decide_eq_true_eq]
          tauto
        rw [if_neg other, same, Bool.true_and]
        generalize signatureHash call.scriptCode call.txTo call.nIn _ = sighash
        cases cached : CSignatureCache.get cache sighash call.vchSig.dropLast call.vchPubKey with
        | true =>
            have verified := sound _ (Std.ExtTreeSet.mem_iff_contains.mpr cached)
            exact ⟨cache, by simp [verified], sound⟩
        | false =>
            cases key : SetPubKey call.vchPubKey with
            | false => exact ⟨cache, by simp, sound⟩
            | true =>
                cases verified : Verify call.vchPubKey sighash call.vchSig.dropLast with
                | false => exact ⟨cache, by simp, sound⟩
                | true =>
                    by_cases noCache : call.flags &&& SCRIPT_VERIFY_NOCACHE ≠ 0
                    · exact ⟨cache, by simp [noCache], sound⟩
                    · obtain ⟨after, run, entries⟩ := CSignatureCache.set_eq_ok call.nMaxCacheSize
                        call.random cache sighash call.vchSig.dropLast call.vchPubKey
                      refine ⟨after, by simp [noCache, run], fun entry member => ?_⟩
                      cases entries entry member with
                      | inl old => exact sound entry old
                      | inr new =>
                          rw [new]
                          exact ⟨key, verified⟩

theorem checkSigs_of_sound {cache : SigSet} (calls : List CheckSigCall) (sound : Sound cache) :
    ∃ results after, checkSigs calls cache = .ok (results, after) ∧
      List.Forall₂ (fun call fValid => ∃ afterEmpty, checkSig call ∅ = .ok (fValid, afterEmpty))
        calls results := by
  induction calls generalizing cache with
  | nil => exact ⟨[], cache, rfl, .nil⟩
  | cons call calls ih =>
      obtain ⟨after, run, stillSound⟩ := checkSig_of_sound call sound
      obtain ⟨afterEmpty, alone, _⟩ := checkSig_of_sound call sound_empty
      obtain ⟨results, last, rest, each⟩ := ih stillSound
      refine ⟨verdict call :: results, last, ?_, .cons ⟨afterEmpty, alone⟩ each⟩
      simp only [checkSigs, run, rest, ok_bind]
      rfl

/-- In every sequence of calls each one returns what it would with an empty cache, and Set
always returns. -/
theorem checkSigs_transparent (calls : List CheckSigCall) :
    (∃ results cache, checkSigs calls ∅ = .ok (results, cache) ∧
      List.Forall₂ (fun call fValid => ∃ afterEmpty, checkSig call ∅ = .ok (fValid, afterEmpty))
        calls results) ∧
      ∀ nMaxCacheSize random setValid hash vchSig pubKey,
        ∃ after, CSignatureCache.set nMaxCacheSize random setValid hash vchSig pubKey = .ok after := by
  refine ⟨checkSigs_of_sound calls sound_empty, fun nMaxCacheSize random setValid hash vchSig pubKey => ?_⟩
  obtain ⟨after, run, _⟩ := CSignatureCache.set_eq_ok nMaxCacheSize random setValid hash vchSig pubKey
  exact ⟨after, run⟩

end

end BitCrystal
