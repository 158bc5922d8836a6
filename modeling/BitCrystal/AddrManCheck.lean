import BitCrystal.AddrManTried
import BitCrystal.Data.Outcome

namespace BitCrystal

open Data

/-! # Check_ -/

namespace CAddrMan

/-- What Check_ finds wrong with an entry. -/
def checkInfo (s : CAddrMan) (n : Int) (info : CAddrInfo) : Except Int Unit := do
  if info.fInTried then
    require (info.nLastSuccess ≠ 0) (-1)
    require (info.nRefCount = 0) (-2)
  else
    require (0 ≤ info.nRefCount ∧ info.nRefCount ≤ ADDRMAN_NEW_BUCKETS_PER_ADDRESS) (-3)
    require (info.nRefCount ≠ 0) (-4)
  require (s.mapAddr[info.service.addr]?.getD 0 = n) (-5)
  require (s.vRandom[info.nRandomPos]? = some n) (-14)
  require (0 ≤ info.nLastTry) (-6)
  require (0 ≤ info.nLastSuccess) (-8)

/-- The loop over mapInfo; in mapNew an id occurs as often as it has references. -/
def checkInfos (s : CAddrMan) : List (Int × CAddrInfo) → Multiset Int → Multiset Int →
    Except Int (Multiset Int × Multiset Int)
  | [], setTried, mapNew => return (setTried, mapNew)
  | (n, info) :: rest, setTried, mapNew => do
      s.checkInfo n info
      if info.fInTried then s.checkInfos rest (n ::ₘ setTried) mapNew
      else s.checkInfos rest setTried (Multiset.replicate info.nRefCount.toNat n + mapNew)

/-- Check_ answers 0 or one of these codes. -/
def check_ (s : CAddrMan) : Except Int Unit := do
  require ((s.vRandom.length : Int) = s.nTried + s.nNew) (-7)
  let (setTried, mapNew) ← s.checkInfos s.mapInfo.toList 0 0
  require ((setTried.card : Int) = s.nTried) (-9)
  require ((mapNew.toFinset.card : Int) = s.nNew) (-10)
  let setTried ← expect (strike setTried ((List.finRange ADDRMAN_TRIED_BUCKET_COUNT).flatMap s.vvTried)) (-11)
  let mapNew ← expect (strike mapNew
    ((List.finRange ADDRMAN_NEW_BUCKET_COUNT).flatMap fun b => (s.vvNew b).sort (· ≤ ·))) (-12)
  require (setTried.card = 0) (-13)
  require (mapNew.toFinset.card = 0) (-15)

variable {s : CAddrMan} {nId : Int} {info : CAddrInfo}

/-- What Check_ asks of an entry. -/
structure Checks (s : CAddrMan) (nId : Int) (info : CAddrInfo) : Prop where
  tried : info.fInTried = true → info.nLastSuccess ≠ 0 ∧ info.nRefCount = 0
  new : info.fInTried = false → 1 ≤ info.nRefCount ∧ info.nRefCount ≤ ADDRMAN_NEW_BUCKETS_PER_ADDRESS
  address : s.mapAddr[info.service.addr]?.getD 0 = nId
  position : s.vRandom[info.nRandomPos]? = some nId
  nLastTry : 0 ≤ info.nLastTry
  nLastSuccess : 0 ≤ info.nLastSuccess

theorem checkInfo_eq_ok : s.checkInfo nId info = .ok () ↔ s.Checks nId info := by
  unfold checkInfo
  cases kind : info.fInTried with
  | true =>
      simp only [if_true, bind_eq_ok, require_eq_ok, exists_const]
      constructor
      · rintro ⟨succeeded, unreferenced, address, position, nLastTry, nLastSuccess⟩
        exact ⟨fun _ => ⟨succeeded, unreferenced⟩, by simp [kind], address, position, nLastTry, nLastSuccess⟩
      · intro checks
        exact ⟨(checks.tried kind).1, (checks.tried kind).2, checks.address, checks.position, checks.nLastTry,
          checks.nLastSuccess⟩
  | false =>
      simp only [Bool.false_eq_true, if_false, bind_eq_ok, require_eq_ok, exists_const]
      constructor
      · rintro ⟨⟨nonneg, few⟩, nonzero, address, position, nLastTry, nLastSuccess⟩
        exact ⟨by simp [kind], fun _ => ⟨by omega, few⟩, address, position, nLastTry, nLastSuccess⟩
      · intro checks
        obtain ⟨positive, few⟩ := checks.new kind
        exact ⟨⟨by omega, few⟩, by omega, checks.address, checks.position, checks.nLastTry, checks.nLastSuccess⟩

def triedIds (entry : Int × CAddrInfo) : List Int := if entry.2.fInTried then [entry.1] else []

def newIds (entry : Int × CAddrInfo) : List Int :=
  if entry.2.fInTried then [] else List.replicate entry.2.nRefCount.toNat entry.1

theorem checkInfos_eq_ok {entries : List (Int × CAddrInfo)} {setTried mapNew tried new : Multiset Int} :
    s.checkInfos entries setTried mapNew = .ok (tried, new) ↔
      (∀ entry ∈ entries, s.Checks entry.1 entry.2) ∧ tried = ↑(entries.flatMap triedIds) + setTried ∧
        new = ↑(entries.flatMap newIds) + mapNew := by
  induction entries generalizing setTried mapNew with
  | nil => simp [checkInfos, eq_comm, pure, Except.pure]
  | cons entry entries ih =>
      obtain ⟨n, info⟩ := entry
      rw [checkInfos, List.forall_mem_cons, ← checkInfo_eq_ok, List.flatMap_cons, List.flatMap_cons,
        ← Multiset.coe_add, ← Multiset.coe_add]
      cases checked : s.checkInfo n info with
      | error error => simp [bind, Except.bind]
      | ok done =>
          simp only [bind, Except.bind, triedIds, newIds, true_and]
          cases info.fInTried with
          | true =>
              simp only [if_true, ih, Multiset.coe_singleton, Multiset.coe_nil, Multiset.zero_add]
              rw [← Multiset.singleton_add n setTried, add_left_comm, add_assoc]
          | false =>
              simp only [Bool.false_eq_true, if_false, ih, Multiset.coe_nil, Multiset.zero_add, Multiset.coe_replicate]
              rw [add_left_comm, add_assoc]

/-- The conditions that Check_ tests. -/
structure Checked (s : CAddrMan) : Prop where
  total : (s.vRandom.length : Int) = s.nTried + s.nNew
  checks : ∀ (nId : Int) (info : CAddrInfo), s.mapInfo[nId]? = some info → s.Checks nId info
  nTried : ((s.mapInfo.toList.flatMap triedIds).length : Int) = s.nTried
  nNew : ((s.mapInfo.toList.flatMap newIds).toFinset.card : Int) = s.nNew
  tried : ∀ nId, (s.mapInfo.toList.flatMap triedIds).count nId = occurrences s.vvTried nId
  new : ∀ nId, (s.mapInfo.toList.flatMap newIds).count nId = references s.vvNew nId

theorem count_tried : ((List.finRange ADDRMAN_TRIED_BUCKET_COUNT).flatMap s.vvTried).count nId =
    occurrences s.vvTried nId :=
  count_flatMap_finRange s.vvTried nId

theorem count_new : ((List.finRange ADDRMAN_NEW_BUCKET_COUNT).flatMap fun b =>
    (s.vvNew b).sort (· ≤ ·)).count nId = references s.vvNew nId := by
  rw [count_flatMap_finRange]
  refine Finset.sum_congr rfl fun b _ => ?_
  by_cases member : nId ∈ s.vvNew b
  · rw [if_pos member]
    exact List.count_eq_one_of_mem (Finset.sort_nodup (s.vvNew b) (· ≤ ·)) ((Finset.mem_sort (· ≤ ·)).mpr member)
  · rw [if_neg member, List.count_eq_zero, Finset.mem_sort]
    exact member

theorem coe_eq_iff_count {items others : List Int} :
    (items : Multiset Int) = others ↔ ∀ nId, items.count nId = others.count nId := by
  rw [Multiset.coe_eq_coe, List.perm_iff_count]

theorem check_eq_ok : s.check_ = .ok () ↔ s.Checked := by
  simp only [check_, bind_eq_ok, require_eq_ok, expect_eq_ok, exists_const, Prod.exists, checkInfos_eq_ok,
    strike_eq_some, add_zero]
  constructor
  · rintro ⟨total, tried, new, ⟨checks, rfl, rfl⟩, nTried, nNew, leftTried, struckTried, leftNew, struckNew,
      noTried, noNew⟩
    obtain rfl : leftTried = 0 := Multiset.card_eq_zero.mp noTried
    obtain rfl : leftNew = 0 := Multiset.toFinset_eq_empty.mp (Finset.card_eq_zero.mp noNew)
    rw [add_zero, coe_eq_iff_count] at struckTried struckNew
    refine ⟨total, ?_, nTried, nNew, ?_, ?_⟩
    · intro nId info found
      exact checks (nId, info) (Std.ExtTreeMap.mem_toList_iff_getElem?_eq_some.mpr found)
    · intro nId
      rw [struckTried, count_tried]
    · intro nId
      rw [struckNew, count_new]
  · intro checked
    have struckTried := coe_eq_iff_count.mpr fun nId => (checked.tried nId).trans count_tried.symm
    have struckNew := coe_eq_iff_count.mpr fun nId => (checked.new nId).trans count_new.symm
    refine ⟨checked.total, _, _, ⟨?_, rfl, rfl⟩, checked.nTried, checked.nNew, 0, ?_, 0, ?_, rfl, rfl⟩
    · intro entry listed
      exact checked.checks entry.1 entry.2 (Std.ExtTreeMap.mem_toList_iff_getElem?_eq_some.mp listed)
    · rw [add_zero, struckTried]
    · rw [add_zero, struckNew]

/-! ## The entries by their ids -/

theorem mem_triedIds (entry : Int × CAddrInfo) : ∀ a ∈ triedIds entry, a = entry.1 := by
  unfold triedIds
  split <;> simp

theorem mem_newIds (entry : Int × CAddrInfo) : ∀ a ∈ newIds entry, a = entry.1 := by
  unfold newIds
  split
  · simp
  · intro a member
    exact List.eq_of_mem_replicate member

theorem placed_iff :
    s.PlacedAt (fun _ => 0) nId ↔
      (∀ info, s.mapInfo[nId]? = some info →
        (info.fInTried = true → info.nRefCount = 0) ∧ (info.fInTried = false →
          1 ≤ info.nRefCount ∧ info.nRefCount ≤ ADDRMAN_NEW_BUCKETS_PER_ADDRESS)) ∧
      (s.mapInfo.toList.flatMap triedIds).count nId = occurrences s.vvTried nId ∧
      (s.mapInfo.toList.flatMap newIds).count nId = references s.vvNew nId := by
  unfold PlacedAt
  cases found : s.mapInfo[nId]? with
  | none =>
      have absent : ∀ info, (nId, info) ∉ s.mapInfo.toList := by
        intro info listed
        rw [Std.ExtTreeMap.mem_toList_iff_getElem?_eq_some, found] at listed
        cases listed
      rw [count_flatMap_absent mem_triedIds absent, count_flatMap_absent mem_newIds absent, status, found]
      constructor
      · rintro ⟨-, new, tried⟩
        exact ⟨by rintro _ ⟨⟩, tried.symm, new.symm⟩
      · rintro ⟨-, tried, new⟩
        exact ⟨rfl, new.symm, tried.symm⟩
  | some info =>
      have listed : (nId, info) ∈ s.mapInfo.toList := Std.ExtTreeMap.mem_toList_iff_getElem?_eq_some.mpr found
      rw [count_flatMap_keys (toList_keys_nodup s.mapInfo) mem_triedIds listed, count_flatMap_keys (toList_keys_nodup s.mapInfo) mem_newIds listed,
        status_of_found found]
      cases kind : info.fInTried with
      | true =>
          simp only [triedIds, newIds, kind, if_true, List.count_singleton_self, List.count_nil]
          constructor
          · rintro ⟨counted, none, once⟩
            refine ⟨?_, once.symm, by omega⟩
            rintro other ⟨⟩
            exact ⟨fun _ => none, by simp [kind]⟩
          · rintro ⟨entry, once, nowhere⟩
            have none := (entry info rfl).1 kind
            exact ⟨by omega, none, once.symm⟩
      | false =>
          simp only [triedIds, newIds, kind, Bool.false_eq_true, if_false, List.count_nil,
            List.count_replicate_self]
          constructor
          · rintro ⟨counted, positive, few, outside⟩
            refine ⟨?_, outside.symm, by omega⟩
            rintro other ⟨⟩
            exact ⟨by simp [kind], fun _ => ⟨positive, few⟩⟩
          · rintro ⟨entry, outside, references⟩
            obtain ⟨positive, few⟩ := (entry info rfl).2 kind
            exact ⟨by omega, positive, few, outside.symm⟩

theorem entries_length (positions : Indexes s.vRandom s.position) : s.mapInfo.toList.length = s.vRandom.length := by
  have same : (s.mapInfo.toList.map Prod.fst).Perm s.vRandom := by
    rw [List.perm_ext_iff_of_nodup (toList_keys_nodup s.mapInfo) positions.nodup]
    intro nId
    rw [positions.mem_iff, List.mem_map, position, Option.isSome_map, Option.isSome_iff_exists]
    constructor
    · rintro ⟨⟨id, info⟩, listed, rfl⟩
      exact ⟨info, Std.ExtTreeMap.mem_toList_iff_getElem?_eq_some.mp listed⟩
    · rintro ⟨info, found⟩
      exact ⟨(nId, info), Std.ExtTreeMap.mem_toList_iff_getElem?_eq_some.mpr found, rfl⟩
  rw [← same.length_eq, List.length_map]

/-- Each new entry has references, so that there are as many ids in mapNew as new entries. -/
theorem card_newIds {entries : List (Int × CAddrInfo)} (keys : (entries.map Prod.fst).Nodup)
    (referenced : ∀ entry ∈ entries, entry.2.fInTried = false → 1 ≤ entry.2.nRefCount) :
    (entries.flatMap triedIds).length + (entries.flatMap newIds).toFinset.card = entries.length := by
  induction entries with
  | nil => rfl
  | cons entry rest ih =>
      rw [List.map_cons, List.nodup_cons] at keys
      have ih := ih keys.2 fun other later => referenced other (List.mem_cons_of_mem entry later)
      rw [List.flatMap_cons, List.flatMap_cons, List.length_append, List.toFinset_append, List.length_cons]
      cases kind : entry.2.fInTried with
      | true =>
          simp only [triedIds, newIds, kind, if_true, List.toFinset_nil, Finset.empty_union, List.length_singleton]
            at ih ⊢
          omega
      | false =>
          have positive := referenced entry List.mem_cons_self kind
          have alone : (newIds entry).toFinset = {entry.1} := by
            simp only [newIds, kind, Bool.false_eq_true, if_false]
            exact List.toFinset_replicate_of_ne_zero (by omega)
          have fresh : entry.1 ∉ (rest.flatMap newIds).toFinset := by
            rw [List.mem_toFinset]
            intro inside
            obtain ⟨other, later, mine⟩ := List.mem_flatMap.mp inside
            exact keys.1 (mem_newIds other _ mine ▸ List.mem_map_of_mem later)
          have none : (triedIds entry).length = 0 := by simp [triedIds, kind]
          rw [alone, Finset.singleton_union, Finset.card_insert_of_notMem fresh, none]
          omega

/-- The indexes, the counters and the places of the ids are right, whatever the sizes of the buckets. -/
theorem Checked.of_indexes (positions : Indexes s.vRandom s.position)
    (addresses : ∀ (nId : Int) (info : CAddrInfo), s.mapInfo[nId]? = some info →
      s.mapAddr[info.service.addr]? = some nId)
    (counted : s.nTried = ∑ b, ((s.vvTried b).length : Int)) (total : (s.vRandom.length : Int) = s.nTried + s.nNew)
    (everyPlaced : ∀ nId, s.PlacedAt (fun _ => 0) nId) (timely : s.Timely) : s.Checked := by
  have placed := fun nId => placed_iff.mp (everyPlaced nId)
  have nTried : ((s.mapInfo.toList.flatMap triedIds).length : Int) = s.nTried := by
    have struck := coe_eq_iff_count.mpr fun nId => (placed nId).2.1.trans count_tried.symm
    have sum : (∑ b, (s.vvTried b).length) =
        ((List.finRange ADDRMAN_TRIED_BUCKET_COUNT).flatMap s.vvTried).length := by
      rw [List.length_flatMap, Fin.sum_univ_def]
    have lengths := congrArg Multiset.card struck
    rw [Multiset.coe_card, Multiset.coe_card] at lengths
    rw [counted, lengths, ← sum, Nat.cast_sum]
  have entries := entries_length positions
  have referenced : ∀ entry ∈ s.mapInfo.toList, entry.2.fInTried = false → 1 ≤ entry.2.nRefCount := by
    intro entry listed isNew
    have found := Std.ExtTreeMap.mem_toList_iff_getElem?_eq_some.mp listed
    exact (((placed entry.1).1 entry.2 found).2 isNew).1
  have new := card_newIds (toList_keys_nodup s.mapInfo) referenced
  refine ⟨total, ?_, nTried, by omega, fun nId => (placed nId).2.1, fun nId => (placed nId).2.2⟩
  intro nId info found
  obtain ⟨tried, success, nonzero⟩ := timely nId info found
  obtain ⟨emptied, referenced⟩ := (placed nId).1 info found
  refine ⟨fun isTried => ⟨nonzero isTried, emptied isTried⟩, referenced, ?_, ?_, tried, success⟩
  · rw [addresses nId info found, Option.getD_some]
  · exact positions.at_some (position_of_found found)

theorem Consistent.check_eq_ok (consistent : s.Consistent) : s.check_ = .ok () ↔ s.Timely := by
  rw [CAddrMan.check_eq_ok]
  constructor
  · intro checked nId info found
    have checks := checked.checks nId info found
    exact ⟨checks.nLastTry, checks.nLastSuccess, fun isTried => (checks.tried isTried).1⟩
  · intro timely
    refine .of_indexes consistent.positions ?_ consistent.nTried consistent.total consistent.placed timely
    intro nId info found
    exact (consistent.addresses _ nId).mpr (address_of_found found)

end CAddrMan

end BitCrystal
