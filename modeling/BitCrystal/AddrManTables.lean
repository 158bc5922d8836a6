import BitCrystal.AddrMan
import BitCrystal.Data.Tables

namespace BitCrystal

open Data

/-! # The tables of the address manager -/

namespace CAddrMan

/-! ## What the tables say about an id -/

def position (s : CAddrMan) (nId : Int) : Option Nat := s.mapInfo[nId]?.map CAddrInfo.nRandomPos

def address (s : CAddrMan) (nId : Int) : Option CNetAddr := s.mapInfo[nId]?.map fun info => info.service.addr

def status (s : CAddrMan) (nId : Int) : Option (Int × Bool) :=
  s.mapInfo[nId]?.map fun info => (info.nRefCount, info.fInTried)

def references (vvNew : Fin ADDRMAN_NEW_BUCKET_COUNT → Finset Int) (nId : Int) : Nat :=
  ∑ b, if nId ∈ vvNew b then 1 else 0

def occurrences (vvTried : Fin ADDRMAN_TRIED_BUCKET_COUNT → List Int) (nId : Int) : Nat :=
  ∑ b, (vvTried b).count nId

/-- An entry is in the new buckets that it counts, or in one tried bucket. Its counter may be ahead
of the buckets by `pending`. -/
def Placed (pending : Int) (status : Option (Int × Bool)) (references occurrences : Nat) : Prop :=
  match status with
  | none => pending = 0 ∧ references = 0 ∧ occurrences = 0
  | some (nRefCount, fInTried) =>
      nRefCount = references + pending ∧
        if fInTried then nRefCount = 0 ∧ occurrences = 1
        else 1 ≤ nRefCount ∧ nRefCount ≤ ADDRMAN_NEW_BUCKETS_PER_ADDRESS ∧ occurrences = 0

def PlacedAt (s : CAddrMan) (pending : Int → Int) (nId : Int) : Prop :=
  Placed (pending nId) (s.status nId) (references s.vvNew nId) (occurrences s.vvTried nId)

structure Indexed (s : CAddrMan) : Prop where
  positions : Indexes s.vRandom s.position
  addresses : ∀ ip nId, s.mapAddr[ip]? = some nId ↔ s.address nId = some ip
  old : ∀ nId, s.nIdCount ≤ nId → s.mapInfo[nId]? = none
  nTried : s.nTried = ∑ b, ((s.vvTried b).length : Int)
  total : (s.vRandom.length : Int) = s.nTried + s.nNew
  newSize : ∀ b, (s.vvNew b).card ≤ ADDRMAN_NEW_BUCKET_SIZE
  triedSize : ∀ b, (s.vvTried b).length ≤ ADDRMAN_TRIED_BUCKET_SIZE

/-- Everything about an entry but its place in `vRandom`. -/
def still (s : CAddrMan) (nId : Int) : Option CAddrInfo :=
  s.mapInfo[nId]?.map fun info => { info with nRandomPos := 0 }

variable {s next : CAddrMan} {nId other : Int} {info old : CAddrInfo} {pending : Int → Int}

theorem address_eq_still : s.address nId = (s.still nId).map fun info => info.service.addr := by
  simp [address, still, Function.comp_def]

theorem status_eq_still : s.status nId = (s.still nId).map fun info => (info.nRefCount, info.fInTried) := by
  simp [status, still, Function.comp_def]

theorem position_of_found (found : s.mapInfo[nId]? = some info) : s.position nId = some info.nRandomPos := by
  simp [position, found]

theorem address_of_found (found : s.mapInfo[nId]? = some info) : s.address nId = some info.service.addr := by
  simp [address, found]

theorem status_of_found (found : s.mapInfo[nId]? = some info) :
    s.status nId = some (info.nRefCount, info.fInTried) := by
  simp [status, found]

/-- The entries are those from before with their times. One becomes a tried one only if it has a time
of success. -/
structure Inherits (s next : CAddrMan) : Prop where
  nIdCount : next.nIdCount = s.nIdCount
  entry : ∀ (nId : Int) (info : CAddrInfo), next.mapInfo[nId]? = some info →
    ∃ old : CAddrInfo, s.mapInfo[nId]? = some old ∧ info.nLastTry = old.nLastTry ∧
      info.nLastSuccess = old.nLastSuccess ∧ (info.fInTried = true → old.fInTried = true ∨ old.nLastSuccess ≠ 0)

theorem Inherits.of_eq (sameCount : next.nIdCount = s.nIdCount) (same : next.mapInfo = s.mapInfo) :
    s.Inherits next :=
  ⟨sameCount, fun _ info found => ⟨info, same ▸ found, rfl, rfl, .inl⟩⟩

theorem Inherits.trans {last : CAddrMan} (first : s.Inherits next) (second : next.Inherits last) :
    s.Inherits last := by
  refine ⟨second.nIdCount.trans first.nIdCount, ?_⟩
  intro nId info found
  obtain ⟨mid, found', tried', success', kind'⟩ := second.entry nId info found
  obtain ⟨old, found'', tried, success, kind⟩ := first.entry nId mid found'
  refine ⟨old, found'', tried'.trans tried, success'.trans success, ?_⟩
  intro isTried
  rcases kind' isTried with before | succeeded
  · exact kind before
  · exact .inr (success ▸ succeeded)

/-! ## Changing an entry -/

theorem setInfo_mapInfo :
    (s.setInfo nId info).mapInfo[other]? = if other = nId then some info else s.mapInfo[other]? :=
  lookup_insert s.mapInfo nId other info

theorem setInfo_status :
    (s.setInfo nId info).status = Function.update s.status nId (some (info.nRefCount, info.fInTried)) := by
  funext other
  rw [status, setInfo_mapInfo, Function.update_apply]
  split <;> rfl

theorem setInfo_position (found : s.mapInfo[nId]? = some old) (same : info.nRandomPos = old.nRandomPos) :
    (s.setInfo nId info).position = s.position := by
  funext other
  rw [position, setInfo_mapInfo]
  split
  · rename_i here
    rw [here, position_of_found found, Option.map_some, same]
  · rfl

theorem setInfo_address (found : s.mapInfo[nId]? = some old) (same : info.service.addr = old.service.addr) :
    (s.setInfo nId info).address = s.address := by
  funext other
  rw [address, setInfo_mapInfo]
  split
  · rename_i here
    rw [here, address_of_found found, Option.map_some, same]
  · rfl

theorem Indexed.rearrange (indexed : s.Indexed) (sameRandom : next.vRandom = s.vRandom)
    (samePositions : next.position = s.position) (sameAddr : next.mapAddr = s.mapAddr)
    (sameAddresses : next.address = s.address) (sameCount : next.nIdCount = s.nIdCount)
    (nTried : next.nTried = ∑ b, ((next.vvTried b).length : Int))
    (total : next.nTried + next.nNew = s.nTried + s.nNew)
    (newSize : ∀ b, (next.vvNew b).card ≤ ADDRMAN_NEW_BUCKET_SIZE)
    (triedSize : ∀ b, (next.vvTried b).length ≤ ADDRMAN_TRIED_BUCKET_SIZE) : next.Indexed where
  positions := by
    rw [sameRandom, samePositions]
    exact indexed.positions
  addresses := by
    rw [sameAddr, sameAddresses]
    exact indexed.addresses
  old := by
    intro nId notYet
    have same := congrFun samePositions nId
    rw [position, position, indexed.old nId (sameCount ▸ notYet), Option.map_none, Option.map_eq_none_iff] at same
    exact same
  nTried := nTried
  total := by
    rw [sameRandom, total]
    exact indexed.total
  newSize := newSize
  triedSize := triedSize

theorem Indexed.setInfo (indexed : s.Indexed) (found : s.mapInfo[nId]? = some old)
    (samePos : info.nRandomPos = old.nRandomPos) (sameAddr : info.service.addr = old.service.addr) :
    (s.setInfo nId info).Indexed :=
  indexed.rearrange rfl (setInfo_position found samePos) rfl (setInfo_address found sameAddr) rfl indexed.nTried rfl
    indexed.newSize indexed.triedSize

theorem Inherits.setInfo (found : s.mapInfo[nId]? = some old) (sameTry : info.nLastTry = old.nLastTry)
    (sameSuccess : info.nLastSuccess = old.nLastSuccess)
    (kind : info.fInTried = true → old.fInTried = true ∨ old.nLastSuccess ≠ 0) :
    s.Inherits (s.setInfo nId info) := by
  refine ⟨rfl, ?_⟩
  intro other info' found'
  rw [setInfo_mapInfo] at found'
  split at found'
  · rename_i here
    cases found'
    exact ⟨old, here ▸ found, sameTry, sameSuccess, kind⟩
  · exact ⟨info', found', rfl, rfl, .inl⟩

/-! ## SwapRandom -/

/-- Only `vRandom` and the positions in it change. -/
structure Moved (s next : CAddrMan) : Prop where
  still : next.still = s.still
  nKey : next.nKey = s.nKey
  nIdCount : next.nIdCount = s.nIdCount
  mapAddr : next.mapAddr = s.mapAddr
  length : next.vRandom.length = s.vRandom.length
  nTried : next.nTried = s.nTried
  vvTried : next.vvTried = s.vvTried
  nNew : next.nNew = s.nNew
  vvNew : next.vvNew = s.vvNew

theorem Moved.refl : s.Moved s := ⟨rfl, rfl, rfl, rfl, rfl, rfl, rfl, rfl, rfl⟩

theorem Moved.address (moved : s.Moved next) : next.address = s.address := by
  funext nId
  rw [address_eq_still, address_eq_still, moved.still]

theorem Moved.status (moved : s.Moved next) : next.status = s.status := by
  funext nId
  rw [status_eq_still, status_eq_still, moved.still]

theorem Moved.none_iff (moved : s.Moved next) : next.mapInfo[nId]? = none ↔ s.mapInfo[nId]? = none := by
  have same := congrFun moved.still nId
  simp only [CAddrMan.still] at same
  rw [← Option.map_eq_none_iff, same, Option.map_eq_none_iff]

theorem Moved.inherits (moved : s.Moved next) : s.Inherits next := by
  refine ⟨moved.nIdCount, ?_⟩
  intro nId info found
  have same := congrFun moved.still nId
  simp only [CAddrMan.still, found, Option.map_some] at same
  obtain ⟨old, found', eq⟩ := Option.map_eq_some_iff.mp same.symm
  exact ⟨old, found', (congrArg CAddrInfo.nLastTry eq).symm, (congrArg CAddrInfo.nLastSuccess eq).symm,
    fun isTried => .inl ((congrArg CAddrInfo.fInTried eq).trans isTried)⟩

theorem Indexed.moved (indexed : s.Indexed) (moved : s.Moved next)
    (positions : Indexes next.vRandom next.position) : next.Indexed where
  positions := positions
  addresses := by
    rw [moved.mapAddr, moved.address]
    exact indexed.addresses
  old := by
    intro nId notYet
    exact moved.none_iff.mpr (indexed.old nId (moved.nIdCount ▸ notYet))
  nTried := by
    rw [moved.nTried, moved.vvTried]
    exact indexed.nTried
  total := by
    rw [moved.length, moved.nTried, moved.nNew]
    exact indexed.total
  newSize := moved.vvNew ▸ indexed.newSize
  triedSize := moved.vvTried ▸ indexed.triedSize

theorem Indexed.entry (indexed : s.Indexed) {i : Nat} (within : i < s.vRandom.length) :
    ∃ nId info, s.vRandom[i]? = some nId ∧ s.mapInfo[nId]? = some info ∧ info.nRandomPos = i := by
  have found := List.getElem?_eq_getElem within
  have known := (indexed.positions _ i).mpr found
  simp only [position, Option.map_eq_some_iff] at known
  obtain ⟨info, known, rfl⟩ := known
  exact ⟨_, info, found, known, rfl⟩

theorem Indexed.swapRandom (indexed : s.Indexed) {i j : Nat} (first : i < s.vRandom.length)
    (second : j < s.vRandom.length) :
    ∃ next, s.swapRandom i j = some next ∧ s.Moved next ∧ next.Indexed ∧ next.vRandom[j]? = s.vRandom[i]? := by
  unfold CAddrMan.swapRandom
  split
  · rename_i same
    exact ⟨s, rfl, .refl, indexed, by rw [same]⟩
  · rename_i different
    obtain ⟨nId1, info1, at_i, found1, pos1⟩ := indexed.entry first
    obtain ⟨nId2, info2, at_j, found2, pos2⟩ := indexed.entry second
    have apart : nId1 ≠ nId2 := by
      rintro rfl
      rw [found1] at found2
      cases found2
      exact different (pos1.symm.trans pos2)
    simp only [at_i, at_j, found1, found2, Option.pure_def, Option.bind_eq_bind, Option.bind_some]
    have lookup : ∀ nId, ((s.mapInfo.insert nId1 { info1 with nRandomPos := j }).insert nId2
          { info2 with nRandomPos := i })[nId]? =
        if nId = nId2 then some { info2 with nRandomPos := i }
        else if nId = nId1 then some { info1 with nRandomPos := j } else s.mapInfo[nId]? := by
      intro nId
      rw [lookup_insert, lookup_insert]
    refine ⟨_, rfl, ?moved, indexed.moved ?moved ?positions, by simp [second]⟩
    case moved =>
      refine ⟨?_, rfl, rfl, rfl, by simp, rfl, rfl, rfl, rfl⟩
      funext nId
      simp only [CAddrMan.still, lookup]
      split
      · rename_i is2
        rw [is2, found2]
        rfl
      · split
        · rename_i is1
          rw [is1, found1]
          rfl
        · rfl
    case positions =>
      have swapped : position { s with
            mapInfo := (s.mapInfo.insert nId1 { info1 with nRandomPos := j }).insert nId2
              { info2 with nRandomPos := i }
            vRandom := (s.vRandom.set i nId2).set j nId1 } =
          Function.update (Function.update s.position nId1 (some j)) nId2 (some i) := by
        funext nId
        simp only [CAddrMan.position, lookup, Function.update_apply]
        split
        · rfl
        · split <;> rfl
      rw [swapped]
      exact indexed.positions.swap different at_i at_j

/-! ## Entering and leaving the tables -/

theorem Indexed.length_pos (indexed : s.Indexed) (found : s.mapInfo[nId]? = some info) :
    info.nRandomPos < s.vRandom.length := by
  have at_pos := indexed.positions.at_some (position_of_found found)
  exact (List.getElem?_eq_some_iff.mp at_pos).1

theorem Indexed.deleteInfo (indexed : s.Indexed) (found : s.mapInfo[nId]? = some info) :
    ∃ next, s.deleteInfo nId info = some next ∧ next.Indexed ∧
      next.status = Function.update s.status nId none ∧ next.vvTried = s.vvTried ∧ next.vvNew = s.vvNew ∧
      s.Inherits next := by
  have within := indexed.length_pos found
  have last : s.vRandom.length - 1 < s.vRandom.length := by omega
  obtain ⟨next, swap, moved, indexed', at_last⟩ := indexed.swapRandom within last
  rw [indexed.positions.at_some (position_of_found found)] at at_last
  rw [← moved.length] at at_last
  have lookup : ∀ other, (next.mapInfo.erase nId)[other]? = if other = nId then none else next.mapInfo[other]? :=
    fun other => lookup_erase next.mapInfo nId other
  simp only [CAddrMan.deleteInfo, swap, Option.pure_def, Option.bind_eq_bind, Option.bind_some]
  refine ⟨_, rfl, ?_, ?_, moved.vvTried, moved.vvNew, ?_⟩
  · constructor
    case positions =>
      have left : position { next with
            vRandom := next.vRandom.dropLast
            mapAddr := next.mapAddr.erase info.service.addr
            mapInfo := next.mapInfo.erase nId
            nNew := next.nNew - 1 } = Function.update next.position nId none := by
        funext other
        simp only [CAddrMan.position, lookup, Function.update_apply]
        split <;> rfl
      rw [left]
      exact indexed'.positions.pop at_last
    case addresses =>
      intro ip other
      simp only [CAddrMan.address, lookup_erase]
      have mine : next.address nId = some info.service.addr := by
        rw [moved.address, address_of_found found]
      have before := indexed'.addresses ip other
      split
      · rename_i isIp
        split
        · simp
        · rename_i different
          simp only [reduceCtorEq, false_iff]
          intro known
          have first := (indexed'.addresses ip other).mpr known
          have second := (indexed'.addresses ip nId).mpr (isIp ▸ mine)
          exact different (Option.some.inj (first.symm.trans second))
      · rename_i notIp
        split
        · rename_i isId
          simp only [Option.map_none, reduceCtorEq, iff_false]
          intro known
          have := (indexed'.addresses ip other).mp known
          rw [isId, mine] at this
          exact notIp (Option.some.inj this).symm
        · exact before
    case old =>
      intro other notYet
      refine (lookup other).trans ?_
      split
      · rfl
      · exact indexed'.old other notYet
    case nTried => exact indexed'.nTried
    case total =>
      have total := indexed'.total
      have length := moved.length
      simp only [List.length_dropLast]
      omega
    case newSize => exact indexed'.newSize
    case triedSize => exact indexed'.triedSize
  · rw [← moved.status]
    funext other
    simp only [CAddrMan.status, lookup, Function.update_apply]
    split <;> rfl
  · refine moved.inherits.trans ⟨rfl, ?_⟩
    intro other info' found'
    rw [lookup] at found'
    split at found'
    · cases found'
    · exact ⟨info', found', rfl, rfl, .inl⟩

section

variable {vvNew : Fin ADDRMAN_NEW_BUCKET_COUNT → Finset Int} {b : Fin ADDRMAN_NEW_BUCKET_COUNT}

theorem references_update (vvNew : Fin ADDRMAN_NEW_BUCKET_COUNT → Finset Int) (b : Fin ADDRMAN_NEW_BUCKET_COUNT)
    (vNew : Finset Int) (other : Int) :
    references (Function.update vvNew b vNew) other + (if other ∈ vvNew b then 1 else 0) =
      references vvNew other + if other ∈ vNew then 1 else 0 :=
  sum_update vvNew (fun vNew => if other ∈ vNew then 1 else 0) b vNew

theorem references_pos (member : nId ∈ vvNew b) : 1 ≤ references vvNew nId := by
  have one : (if nId ∈ vvNew b then 1 else 0) = 1 := if_pos member
  rw [← one]
  exact Finset.single_le_sum (f := fun b => if nId ∈ vvNew b then 1 else 0) (fun _ _ => Nat.zero_le _)
    (Finset.mem_univ b)

theorem references_erase (member : nId ∈ vvNew b) (other : Int) :
    references (Function.update vvNew b ((vvNew b).erase nId)) other + (if other = nId then 1 else 0) =
      references vvNew other := by
  have sums := references_update vvNew b ((vvNew b).erase nId) other
  by_cases same : other = nId
  · subst same
    simpa [member] using sums
  · simpa [same] using sums

theorem references_insert (absent : nId ∉ vvNew b) (other : Int) :
    references (Function.update vvNew b (insert nId (vvNew b))) other =
      references vvNew other + if other = nId then 1 else 0 := by
  have sums := references_update vvNew b (insert nId (vvNew b)) other
  by_cases same : other = nId
  · subst same
    simpa [absent] using sums
  · simpa [same] using sums

end

theorem PlacedAt.of_mem {b : Fin ADDRMAN_NEW_BUCKET_COUNT} (placed : s.PlacedAt pending nId)
    (nonneg : 0 ≤ pending nId) (member : nId ∈ s.vvNew b) :
    ∃ info, s.mapInfo[nId]? = some info ∧ info.fInTried = false ∧
      info.nRefCount = references s.vvNew nId + pending nId ∧ info.nRefCount ≤ ADDRMAN_NEW_BUCKETS_PER_ADDRESS ∧
      occurrences s.vvTried nId = 0 := by
  have positive := references_pos member
  unfold PlacedAt Placed at placed
  cases found : s.mapInfo[nId]? with
  | none =>
      simp only [status, found, Option.map_none] at placed
      omega
  | some info =>
      rw [status_of_found found] at placed
      obtain ⟨counted, placed⟩ := placed
      cases kind : info.fInTried with
      | true =>
          rw [kind, if_pos rfl] at placed
          omega
      | false =>
          rw [kind] at placed
          exact ⟨info, rfl, kind, counted, placed.2.1, placed.2.2⟩

theorem Indexed.setNew (indexed : s.Indexed) (b : Fin ADDRMAN_NEW_BUCKET_COUNT) {vNew : Finset Int}
    (size : vNew.card ≤ ADDRMAN_NEW_BUCKET_SIZE) :
    Indexed { s with vvNew := Function.update s.vvNew b vNew } :=
  indexed.rearrange rfl rfl rfl rfl rfl indexed.nTried rfl
    ((Function.forall_update_iff s.vvNew fun _ vNew => vNew.card ≤ ADDRMAN_NEW_BUCKET_SIZE).mpr
      ⟨size, fun b _ => indexed.newSize b⟩) indexed.triedSize

/-- The end of ShrinkNew: an item leaves a bucket. -/
theorem dropFromNew_spec {b : Fin ADDRMAN_NEW_BUCKET_COUNT} (indexed : s.Indexed)
    (placed : ∀ nId, s.PlacedAt pending nId) (settled : pending nId = 0) (member : nId ∈ s.vvNew b) :
    ∃ next, s.dropFromNew b nId = some next ∧ next.Indexed ∧ (∀ nId, next.PlacedAt pending nId) ∧
      next.vvNew = Function.update s.vvNew b ((s.vvNew b).erase nId) ∧ s.Inherits next := by
  obtain ⟨old, found, kind, counted, few, outside⟩ := (placed nId).of_mem settled.ge member
  have positive := references_pos member
  have size : ((s.vvNew b).erase nId).card ≤ ADDRMAN_NEW_BUCKET_SIZE :=
    (Finset.card_le_card (Finset.erase_subset nId (s.vvNew b))).trans (indexed.newSize b)
  have set : (s.setInfo nId { old with nRefCount := old.nRefCount - 1 }).Indexed :=
    indexed.setInfo found rfl rfl
  have inherits : s.Inherits (s.setInfo nId { old with nRefCount := old.nRefCount - 1 }) :=
    .setInfo found rfl rfl .inl
  have found' : (s.setInfo nId { old with nRefCount := old.nRefCount - 1 }).mapInfo[nId]? =
      some { old with nRefCount := old.nRefCount - 1 } := by
    rw [setInfo_mapInfo, if_pos rfl]
  have fewer := references_erase member
  simp only [dropFromNew, found, Option.bind_eq_bind, Option.bind_some, Option.pure_def]
  by_cases last : old.nRefCount - 1 = 0
  · obtain ⟨next, deleted, indexed', status', tried, new, inherits'⟩ := set.deleteInfo found'
    rw [last] at deleted
    simp only [last, if_true, deleted, Option.bind_some]
    have sized := indexed'.setNew b size
    rw [new] at sized ⊢
    refine ⟨_, rfl, sized, ?_, rfl, (inherits.trans inherits').trans (.of_eq rfl rfl)⟩
    intro other
    have before := placed other
    have refs := fewer other
    have now := congrFun status' other
    rw [setInfo_status, Function.update_idem, Function.update_apply] at now
    change Placed (pending other) (next.status other)
      (references (Function.update s.vvNew b ((s.vvNew b).erase nId)) other) (occurrences next.vvTried other)
    rw [now, tried]
    by_cases same : other = nId
    · subst same
      rw [if_pos rfl] at refs ⊢
      exact ⟨settled, by omega, outside⟩
    · rw [if_neg same] at refs ⊢
      rw [Nat.add_zero] at refs
      rw [refs]
      exact before
  · simp only [last, if_false]
    refine ⟨_, rfl, set.setNew b size, ?_, rfl, inherits.trans (.of_eq rfl rfl)⟩
    intro other
    have before := placed other
    have refs := fewer other
    change Placed (pending other) ((s.setInfo nId _).status other)
      (references (Function.update s.vvNew b ((s.vvNew b).erase nId)) other) (occurrences s.vvTried other)
    rw [setInfo_status, Function.update_apply]
    by_cases same : other = nId
    · subst same
      rw [if_pos rfl] at refs ⊢
      rw [kind]
      refine ⟨?_, ?_, ?_, outside⟩ <;> simp only <;> omega
    · rw [if_neg same] at refs ⊢
      rw [Nat.add_zero] at refs
      rw [refs]
      exact before

end CAddrMan

end BitCrystal
