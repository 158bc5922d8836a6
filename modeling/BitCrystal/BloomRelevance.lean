import BitCrystal.BloomFilter

namespace BitCrystal

open Data

/-! # Keys and transactions in a Bloom filter -/

/-- The data that the loops of IsRelevantAndUpdate look for, up to the first operation that cannot be read. -/
def dataElements : Nat → CScript → List Bytes
  | 0, _ => []
  | room + 1, pc =>
      match CScript.getOp pc with
      | none => []
      | some (_, data, next) => if data = [] then dataElements room next else data :: dataElements room next

def CScript.elements (script : CScript) : List Bytes := dataElements script.length script

namespace CBloomFilter

variable {filter after : CBloomFilter}

def HasData (filter : CBloomFilter) (script : CScript) : Prop := ∃ data ∈ script.elements, filter.Has data

theorem HasData.mono {script : CScript} (has : filter.HasData script) (grows : filter.Grows after) :
    after.HasData script := by
  obtain ⟨data, listed, has⟩ := has
  exact ⟨data, listed, grows.has has⟩

theorem matchesData_spec (usable : filter.Usable) (room : Nat) (pc : CScript) :
    ∃ answer, filter.matchesData room pc = .ok answer ∧
      (answer = true ↔ ∃ data ∈ dataElements room pc, filter.Has data) := by
  induction room generalizing pc with
  | zero => exact ⟨false, rfl, by simp [dataElements]⟩
  | succ room ih =>
      unfold matchesData dataElements
      cases parsed : CScript.getOp pc with
      | none => exact ⟨false, rfl, by simp⟩
      | some operation =>
          obtain ⟨opcode, data, next⟩ := operation
          obtain ⟨answer, run, decided⟩ := ih next
          by_cases empty : data = []
          · exact ⟨answer, by simp only [if_pos empty, run], by simpa only [if_pos empty] using decided⟩
          · obtain ⟨contained, found, has⟩ := contains_spec usable data
            simp only [if_neg empty, found, ok_bind]
            cases contained with
            | true => exact ⟨true, rfl, by simp [has.mp rfl]⟩
            | false =>
                have lacks : ¬ filter.Has data := fun present => absurd (has.mpr present) (by decide)
                exact ⟨answer, run, by simp [lacks, decided]⟩

theorem matchesScript_spec (usable : filter.Usable) (script : CScript) :
    ∃ answer, filter.matchesScript script = .ok answer ∧ (answer = true ↔ filter.HasData script) :=
  matchesData_spec usable script.length script

/-! ## The outputs -/

/-- Output `n` of the transaction. -/
def outpointKey (hash : UInt256) (n : Nat) : Bytes := COutPoint.serialize ⟨hash, UInt32.ofNat n⟩

theorem relevantOutput_spec (usable : filter.Usable) (hash : UInt256) (found : Bool) (output : CTxOut × Nat) :
    ∃ after found', relevantOutput hash (filter, found) output = .ok (after, found') ∧ filter.Grows after ∧
      (found' = true ↔ found = true ∨ filter.HasData output.1.scriptPubKey) ∧
      (filter.HasData output.1.scriptPubKey → filter.updatesWith output.1.scriptPubKey = true →
        after.Has (outpointKey hash output.2)) := by
  obtain ⟨answer, run, decided⟩ := matchesScript_spec usable output.1.scriptPubKey
  unfold relevantOutput
  rw [run, ok_bind]
  cases answer with
  | false =>
      have lacks : ¬ filter.HasData output.1.scriptPubKey := fun present => absurd (decided.mpr present) (by decide)
      exact ⟨filter, found, rfl, .refl filter, by simp [lacks], fun present => absurd present lacks⟩
  | true =>
      have present := decided.mp rfl
      cases update : filter.updatesWith output.1.scriptPubKey with
      | false => exact ⟨filter, true, rfl, .refl filter, by simp [present], fun _ => nofun⟩
      | true =>
          obtain ⟨after, inserted, -⟩ := insert_spec usable (outpointKey hash output.2)
          obtain ⟨grows, has⟩ := has_of_insert usable inserted
          refine ⟨after, true, ?_, grows, by simp [present], fun _ _ => has⟩
          simp only [if_true]
          rw [show filter.insert (COutPoint.serialize ⟨hash, UInt32.ofNat output.2⟩) = .ok after from inserted]
          rfl

theorem relevantOutputs_spec (usable : filter.Usable) (hash : UInt256) (found : Bool) (outputs : List (CTxOut × Nat)) :
    ∃ after found', outputs.foldlM (relevantOutput hash) (filter, found) = .ok (after, found') ∧ filter.Grows after ∧
      (found = true → found' = true) ∧
      ∀ output ∈ outputs, filter.HasData output.1.scriptPubKey → found' = true := by
  induction outputs generalizing filter found with
  | nil => exact ⟨filter, found, rfl, .refl filter, id, nofun⟩
  | cons output rest ih =>
      obtain ⟨mid, found', first, grows, decided, -⟩ := relevantOutput_spec usable hash found output
      obtain ⟨after, found'', others, grows', stays, finds⟩ := ih (grows.usable usable) found'
      refine ⟨after, found'', by rw [List.foldlM_cons, first, ok_bind, others], grows.trans grows', ?_, ?_⟩
      · exact fun before => stays (decided.mpr (.inl before))
      · intro other member has
        rcases List.mem_cons.mp member with rfl | member
        · exact stays (decided.mpr (.inr has))
        · exact finds other member (has.mono grows)

/-! ## The inputs -/

theorem relevantInputs_spec (usable : filter.Usable) (inputs : List CTxIn) :
    ∃ answer, filter.relevantInputs inputs = .ok answer ∧
      (answer = true ↔ ∃ txin ∈ inputs, filter.Has txin.prevout.serialize ∨ filter.HasData txin.scriptSig) := by
  induction inputs with
  | nil => exact ⟨false, rfl, by simp⟩
  | cons txin rest ih =>
      obtain ⟨spends, first, has⟩ := contains_spec usable txin.prevout.serialize
      obtain ⟨signs, second, hasData⟩ := matchesScript_spec usable txin.scriptSig
      obtain ⟨answer, others, decided⟩ := ih
      unfold relevantInputs
      rw [first, ok_bind, second]
      simp only [List.mem_cons, exists_eq_or_imp, ← has, ← hasData, ← decided]
      cases spends with
      | true => exact ⟨true, rfl, by simp⟩
      | false =>
          cases signs with
          | true => exact ⟨true, rfl, by simp⟩
          | false => exact ⟨answer, others, by simp⟩

/-! ## IsRelevantAndUpdate -/

/-- The filter has the hash of the transaction, data of an output, a spent outpoint or data of a scriptSig. -/
def Matches (filter : CBloomFilter) (tx : CTransaction) (hash : UInt256) : Prop :=
  filter.Has (littleEndian 32 hash.toNat) ∨ (∃ txout ∈ tx.vout, filter.HasData txout.scriptPubKey) ∨
    ∃ txin ∈ tx.vin, filter.Has txin.prevout.serialize ∨ filter.HasData txin.scriptSig

theorem Matches.mono {tx : CTransaction} {hash : UInt256} (has : filter.Matches tx hash) (grows : filter.Grows after) :
    after.Matches tx hash := by
  rcases has with named | ⟨txout, listed, data⟩ | ⟨txin, listed, spent | data⟩
  · exact .inl (grows.has named)
  · exact .inr (.inl ⟨txout, listed, data.mono grows⟩)
  · exact .inr (.inr ⟨txin, listed, .inl (grows.has spent)⟩)
  · exact .inr (.inr ⟨txin, listed, .inr (data.mono grows)⟩)

/-- The state of the loop over the outputs before output `n`. -/
def beforeOutput (filter : CBloomFilter) (tx : CTransaction) (hash : UInt256) (n : Nat) :
    Except Failure (CBloomFilter × Bool) := do
  let fFound ← filter.contains (littleEndian 32 hash.toNat)
  (tx.vout.zipIdx.take n).foldlM (relevantOutput hash) (filter, fFound)

theorem isRelevantAndUpdate_spec (usable : filter.Usable) (tx : CTransaction) (hash : UInt256) :
    ∃ after found, filter.isRelevantAndUpdate tx hash = .ok (after, found) ∧ filter.Grows after ∧
      (filter.Matches tx hash → found = true) := by
  obtain ⟨named, first, has⟩ := contains_spec usable (littleEndian 32 hash.toNat)
  obtain ⟨after, found, outputs, grows, stays, finds⟩ :=
    relevantOutputs_spec usable hash named tx.vout.zipIdx
  obtain ⟨answer, inputs, decided⟩ := relevantInputs_spec (grows.usable usable) tx.vin
  have run : filter.isRelevantAndUpdate tx hash =
      if found = true then .ok (after, true) else .ok (after, answer) := by
    unfold isRelevantAndUpdate
    rw [first, ok_bind, outputs, ok_bind]
    cases found with
    | true => rfl
    | false => simp only [Bool.false_eq_true, if_false, inputs, ok_bind]; rfl
  have output : (∃ txout ∈ tx.vout, filter.HasData txout.scriptPubKey) → found = true := by
    rintro ⟨txout, listed, data⟩
    obtain ⟨n, within, here⟩ := List.getElem_of_mem listed
    exact finds (txout, n) (List.mem_zipIdx_iff_getElem?.mpr (List.getElem?_eq_some_iff.mpr ⟨within, here⟩)) data
  cases found with
  | true => exact ⟨after, true, run, grows, fun _ => rfl⟩
  | false =>
      refine ⟨after, answer, run, grows, ?_⟩
      rintro (isNamed | inOutput | inInput)
      · exact absurd (stays (has.mpr isNamed)) (by decide)
      · exact absurd (output inOutput) (by decide)
      · obtain ⟨txin, listed, kind⟩ := inInput
        exact decided.mpr ⟨txin, listed, kind.imp grows.has fun data => data.mono grows⟩

theorem beforeOutput_grows (usable : filter.Usable) {tx : CTransaction} {hash : UInt256} {n : Nat} {mid : CBloomFilter}
    {early : Bool} (reached : filter.beforeOutput tx hash n = .ok (mid, early)) : filter.Grows mid := by
  obtain ⟨named, first, _⟩ := contains_spec usable (littleEndian 32 hash.toNat)
  rw [beforeOutput, first, ok_bind] at reached
  obtain ⟨mid', early', outputs, grows, _, _⟩ := relevantOutputs_spec usable hash named (tx.vout.zipIdx.take n)
  obtain ⟨rfl, _⟩ : mid' = mid ∧ early' = early := by
    have same := outputs.symm.trans reached
    simpa using same
  exact grows

/-- An output that matches when its turn comes is followed, if the filter is to be updated with it. -/
theorem isRelevantAndUpdate_follows (usable : filter.Usable) {tx : CTransaction} {hash : UInt256} {n : Nat} {txout : CTxOut}
    {mid : CBloomFilter} {early found : Bool} (here : tx.vout[n]? = some txout)
    (reached : filter.beforeOutput tx hash n = .ok (mid, early)) (data : mid.HasData txout.scriptPubKey)
    (updates : mid.updatesWith txout.scriptPubKey = true)
    (run : filter.isRelevantAndUpdate tx hash = .ok (after, found)) :
    found = true ∧ after.Has (outpointKey hash n) := by
  have grows := beforeOutput_grows usable reached
  obtain ⟨named, first, _⟩ := contains_spec usable (littleEndian 32 hash.toNat)
  rw [beforeOutput, first, ok_bind] at reached
  have split : tx.vout.zipIdx = tx.vout.zipIdx.take n ++ (txout, n) :: tx.vout.zipIdx.drop (n + 1) := by
    have atTurn : tx.vout.zipIdx[n]? = some (txout, n) := by simp [here]
    obtain ⟨inside, entry⟩ := List.getElem?_eq_some_iff.mp atTurn
    rw [← entry, List.getElem_cons_drop, List.take_append_drop]
  obtain ⟨next, found', turn, grows', decided, inserts⟩ :=
    relevantOutput_spec (grows.usable usable) hash early (txout, n)
  obtain ⟨last, found'', others, grows'', stays, _⟩ :=
    relevantOutputs_spec (grows'.usable (grows.usable usable)) hash found' (tx.vout.zipIdx.drop (n + 1))
  have all : tx.vout.zipIdx.foldlM (relevantOutput hash) (filter, named) = .ok (last, found'') := by
    rw [split, List.foldlM_append, reached, ok_bind, List.foldlM_cons, turn, ok_bind, others]
  have isFound : found'' = true := stays (decided.mpr (.inr data))
  rw [isRelevantAndUpdate, first, ok_bind, all, ok_bind, isFound] at run
  obtain ⟨rfl, rfl⟩ : last = after ∧ true = found := by simpa using run
  exact ⟨rfl, grows''.has (inserts data updates)⟩

end CBloomFilter

end BitCrystal
