import BitCrystal.AddrManFile
import Mathlib.Data.Int.Interval

namespace BitCrystal

open Data

/-! # The address manager when its file is read back -/

namespace CAddrInfo

def netAddr (info : CAddrInfo) : CNetAddr := info.service.addr

def tried (info : CAddrInfo) : CAddrInfo := { info with fInTried := true }

/-- What is read of an entry. -/
def loaded (info : CAddrInfo) : CAddrInfo := { info.onDisk with fInTried := info.fInTried }

end CAddrInfo

namespace CAddrMan

/-! ## The numbers of the new entries -/

def isReferenced (entry : Int × CAddrInfo) : Bool := entry.2.nRefCount ≠ 0

def isTried (entry : Int × CAddrInfo) : Bool := entry.2.fInTried

variable {nNew nIds : Int} {mapUnkIds : Std.ExtTreeMap Int Int} {entries : List (Int × CAddrInfo)}

/-- The loop stops early only when there is nothing left for it. -/
theorem numberNew_written (count : nIds + (entries.filter isReferenced).length = nNew) :
    (numberNew nNew nIds mapUnkIds entries).1 = (entries.filter isReferenced).map Prod.snd := by
  induction entries generalizing nIds mapUnkIds with
  | nil => rfl
  | cons entry rest ih =>
      obtain ⟨nId, info⟩ := entry
      rw [numberNew]
      by_cases all : nIds = nNew
      · rw [if_pos all]
        have none : (((nId, info) :: rest).filter isReferenced).length = 0 := by omega
        rw [List.length_eq_zero_iff.mp none, List.map_nil]
      · rw [if_neg all]
        by_cases referenced : info.nRefCount ≠ 0
        · have selected : isReferenced (nId, info) = true := decide_eq_true referenced
          rw [List.filter_cons_of_pos selected] at count ⊢
          rw [List.length_cons] at count
          rw [if_pos referenced, List.map_cons]
          exact congrArg (info :: ·) (ih (by omega))
        · have refused : ¬ isReferenced (nId, info) = true := by simpa [isReferenced] using referenced
          rw [List.filter_cons_of_neg refused] at count ⊢
          rw [if_neg referenced]
          exact ih count

theorem numberNew_other {other : Int} (absent : other ∉ entries.map Prod.fst) :
    (numberNew nNew nIds mapUnkIds entries).2[other]? = mapUnkIds[other]? := by
  induction entries generalizing nIds mapUnkIds with
  | nil => rfl
  | cons entry rest ih =>
      obtain ⟨nId, info⟩ := entry
      rw [List.map_cons, List.mem_cons, not_or] at absent
      have kept : ∀ n : Int, (mapUnkIds.insert nId n)[other]? = mapUnkIds[other]? := by
        intro n
        rw [lookup_insert, if_neg absent.1]
      rw [numberNew]
      split
      · rfl
      · split
        · exact (ih absent.2).trans (kept nIds)
        · exact (ih absent.2).trans (kept nIds)

theorem numberNew_number (keys : (entries.map Prod.fst).Nodup)
    (count : nIds + (entries.filter isReferenced).length = nNew) {k : Nat} {other : Int} {info : CAddrInfo}
    (listed : (entries.filter isReferenced)[k]? = some (other, info)) :
    (numberNew nNew nIds mapUnkIds entries).2[other]? = some (nIds + k) := by
  induction entries generalizing nIds mapUnkIds k with
  | nil => cases listed
  | cons entry rest ih =>
      obtain ⟨nId, first⟩ := entry
      rw [List.map_cons, List.nodup_cons] at keys
      have within := (List.getElem?_eq_some_iff.mp listed).1
      rw [numberNew, if_neg (by omega)]
      by_cases referenced : first.nRefCount ≠ 0
      · have selected : isReferenced (nId, first) = true := decide_eq_true referenced
        rw [List.filter_cons_of_pos selected] at count listed
        rw [List.length_cons] at count
        rw [if_pos referenced]
        cases k with
        | zero =>
            rw [List.getElem?_cons_zero] at listed
            cases listed
            refine (numberNew_other keys.1).trans ?_
            rw [lookup_insert, if_pos rfl, Nat.cast_zero, add_zero]
        | succ k =>
            rw [List.getElem?_cons_succ] at listed
            refine (ih keys.2 (by omega) listed).trans ?_
            rw [Nat.cast_succ, add_assoc, add_comm (1 : Int)]
      · have refused : ¬ isReferenced (nId, first) = true := by simpa [isReferenced] using referenced
        rw [List.filter_cons_of_neg refused] at count listed
        rw [if_neg referenced]
        exact ih keys.2 count listed

theorem listTried_eq {nTried : Int} (count : nIds + (entries.filter isTried).length = nTried) :
    listTried nTried nIds entries = (entries.filter isTried).map Prod.snd := by
  induction entries generalizing nIds with
  | nil => rfl
  | cons entry rest ih =>
      obtain ⟨nId, info⟩ := entry
      rw [listTried]
      by_cases all : nIds = nTried
      · rw [if_pos all]
        have none : (((nId, info) :: rest).filter isTried).length = 0 := by omega
        rw [List.length_eq_zero_iff.mp none, List.map_nil]
      · rw [if_neg all]
        cases kind : info.fInTried with
        | true =>
            have selected : isTried (nId, info) = true := kind
            rw [List.filter_cons_of_pos selected] at count ⊢
            rw [List.length_cons] at count
            rw [if_pos rfl, List.map_cons, ih (by omega)]
        | false =>
            have refused : ¬ isTried (nId, info) = true := by simp [isTried, kind]
            rw [List.filter_cons_of_neg refused] at count ⊢
            rw [if_neg Bool.false_ne_true]
            exact ih count

/-! ## The entries in the order of the file -/

variable {s next : CAddrMan} {nId : Int} {info old : CAddrInfo}

def newEntries (s : CAddrMan) : List (Int × CAddrInfo) := s.mapInfo.toList.filter isReferenced

def triedEntries (s : CAddrMan) : List (Int × CAddrInfo) := s.mapInfo.toList.filter isTried

def fileOrder (s : CAddrMan) : List (Int × CAddrInfo) := s.newEntries ++ s.triedEntries

def numbers (s : CAddrMan) : Std.ExtTreeMap Int Int := (numberNew s.nNew 0 ∅ s.mapInfo.toList).2

theorem flatMap_triedIds (entries : List (Int × CAddrInfo)) :
    entries.flatMap triedIds = (entries.filter isTried).map Prod.fst := by
  induction entries with
  | nil => rfl
  | cons entry rest ih =>
      rw [List.flatMap_cons, ih, List.filter_cons, triedIds, isTried]
      split <;> rfl

theorem mem_newEntries : (nId, info) ∈ s.newEntries ↔ s.mapInfo[nId]? = some info ∧ info.nRefCount ≠ 0 := by
  rw [newEntries, List.mem_filter, Std.ExtTreeMap.mem_toList_iff_getElem?_eq_some, isReferenced, decide_eq_true_iff]

theorem mem_triedEntries : (nId, info) ∈ s.triedEntries ↔ s.mapInfo[nId]? = some info ∧ info.fInTried = true := by
  rw [triedEntries, List.mem_filter, Std.ExtTreeMap.mem_toList_iff_getElem?_eq_some, isTried]

namespace Checked

/-- An entry is referenced unless it is a tried one. -/
theorem referenced_iff (checked : s.Checked) (found : s.mapInfo[nId]? = some info) :
    info.nRefCount ≠ 0 ↔ info.fInTried = false := by
  have checks := checked.checks nId info found
  cases kind : info.fInTried with
  | true => simp [(checks.tried kind).2]
  | false =>
      have positive := (checks.new kind).1
      simp only [ne_eq, iff_true]
      omega

theorem placed (checked : s.Checked) (nId : Int) : s.PlacedAt (fun _ => 0) nId := by
  refine placed_iff.mpr ⟨fun info found => ?_, checked.tried nId, checked.new nId⟩
  have checks := checked.checks nId info found
  exact ⟨fun isTried => (checks.tried isTried).2, checks.new⟩

theorem mem_fileOrder (checked : s.Checked) : (nId, info) ∈ s.fileOrder ↔ s.mapInfo[nId]? = some info := by
  rw [fileOrder, List.mem_append, mem_newEntries, mem_triedEntries, ← and_or_left, and_iff_left_iff_imp]
  intro found
  cases kind : info.fInTried with
  | true => exact .inr rfl
  | false => exact .inl ((checked.referenced_iff found).mpr kind)

theorem length_tried (checked : s.Checked) : (s.triedEntries.length : Int) = s.nTried := by
  have counted := checked.nTried
  rw [flatMap_triedIds, List.length_map] at counted
  exact counted

theorem length_new (checked : s.Checked) : (s.newEntries.length : Int) = s.nNew := by
  have found : ∀ entry ∈ s.mapInfo.toList, s.mapInfo[entry.1]? = some entry.2 :=
    fun entry listed => Std.ExtTreeMap.mem_toList_iff_getElem?_eq_some.mp listed
  have counted := checked.nNew
  have both := card_newIds (toList_keys_nodup s.mapInfo) fun entry listed isNew =>
    ((checked.checks entry.1 entry.2 (found entry listed)).new isNew).1
  rw [flatMap_triedIds, List.length_map] at both
  have complement : s.newEntries = s.mapInfo.toList.filter fun entry => !isTried entry := by
    refine List.filter_congr fun entry listed => ?_
    have kind := checked.referenced_iff (found entry listed)
    rw [isReferenced, isTried, Bool.eq_iff_iff, decide_eq_true_iff, kind, Bool.not_eq_true']
  have parts := List.length_eq_length_filter_add (l := s.mapInfo.toList) isTried
  rw [← complement] at parts
  omega

theorem address_inj (checked : s.Checked) {other : Int} {another : CAddrInfo} (first : s.mapInfo[nId]? = some info)
    (second : s.mapInfo[other]? = some another) (same : info.service.addr = another.service.addr) : nId = other := by
  rw [← (checked.checks nId info first).address, ← (checked.checks other another second).address, same]

end Checked

/-! ## What the file holds -/

/-- The types of the source bound the values. -/
structure Storable (s : CAddrMan) : Prop where
  nKey : s.nKey.length ≤ MAX_SIZE
  nNew : FitsInt 4 s.nNew
  nTried : FitsInt 4 s.nTried
  entry : ∀ (nId : Int) (info : CAddrInfo), s.mapInfo[nId]? = some info → info.Storable

def indices (s : CAddrMan) (b : Fin ADDRMAN_NEW_BUCKET_COUNT) : List Int :=
  ((s.vvNew b).sort (· ≤ ·)).map fun nId => s.numbers[nId]?.getD 0

namespace Checked

theorem of_new (checked : s.Checked) {b : Fin ADDRMAN_NEW_BUCKET_COUNT} (member : nId ∈ s.vvNew b) :
    ∃ info, (nId, info) ∈ s.newEntries := by
  have positive := references_pos member
  have placed := checked.placed nId
  unfold PlacedAt at placed
  cases found : s.mapInfo[nId]? with
  | none =>
      rw [status, found] at placed
      have nowhere : references s.vvNew nId = 0 := placed.2.1
      omega
  | some info =>
      rw [status_of_found found] at placed
      have counted : info.nRefCount = references s.vvNew nId + 0 := placed.1
      exact ⟨info, mem_newEntries.mpr ⟨found, by omega⟩⟩

theorem numbers_eq (checked : s.Checked) {k : Nat} (listed : s.newEntries[k]? = some (nId, info)) :
    s.numbers[nId]? = some (k : Int) := by
  have count : 0 + ((s.mapInfo.toList.filter isReferenced).length : Int) = s.nNew := by
    rw [zero_add]
    exact checked.length_new
  have number : s.numbers[nId]? = some (0 + (k : Int)) :=
    numberNew_number (toList_keys_nodup s.mapInfo) count listed
  rw [zero_add] at number
  exact number

theorem mem_indices (checked : s.Checked) {b : Fin ADDRMAN_NEW_BUCKET_COUNT} {j : Int} :
    j ∈ s.indices b ↔ ∃ k nId info, s.newEntries[k]? = some (nId, info) ∧ j = (k : Nat) ∧ nId ∈ s.vvNew b := by
  rw [indices, List.mem_map]
  constructor
  · rintro ⟨nId, member, rfl⟩
    rw [Finset.mem_sort] at member
    obtain ⟨info, listed⟩ := checked.of_new member
    obtain ⟨k, found⟩ := List.mem_iff_getElem?.mp listed
    refine ⟨k, nId, info, found, ?_, member⟩
    rw [checked.numbers_eq found, Option.getD_some]
  · rintro ⟨k, nId, info, found, rfl, member⟩
    refine ⟨nId, (Finset.mem_sort (· ≤ ·)).mpr member, ?_⟩
    rw [checked.numbers_eq found, Option.getD_some]

theorem nodup_indices (checked : s.Checked) (b : Fin ADDRMAN_NEW_BUCKET_COUNT) : (s.indices b).Nodup := by
  refine List.Nodup.map_on ?_ (Finset.sort_nodup (s.vvNew b) (· ≤ ·))
  intro nId member other otherMember same
  rw [Finset.mem_sort] at member otherMember
  obtain ⟨info, listed⟩ := checked.of_new member
  obtain ⟨another, otherListed⟩ := checked.of_new otherMember
  obtain ⟨k, found⟩ := List.mem_iff_getElem?.mp listed
  obtain ⟨i, otherFound⟩ := List.mem_iff_getElem?.mp otherListed
  rw [checked.numbers_eq found, checked.numbers_eq otherFound, Option.getD_some, Option.getD_some] at same
  obtain rfl : k = i := by exact_mod_cast same
  exact congrArg Prod.fst (Option.some.inj (found.symm.trans otherFound))

theorem index_within (checked : s.Checked) {b : Fin ADDRMAN_NEW_BUCKET_COUNT} {j : Int} (member : j ∈ s.indices b) :
    0 ≤ j ∧ j < s.nNew := by
  obtain ⟨k, nId, info, found, rfl, -⟩ := checked.mem_indices.mp member
  have within := (List.getElem?_eq_some_iff.mp found).1
  have length := checked.length_new
  omega

end Checked

theorem readBucket_reads {vNew : List Int} (size : FitsInt 4 vNew.length)
    (each : ∀ nId ∈ vNew, FitsInt 4 (mapUnkIds[nId]?.getD 0)) :
    Reads readBucket (writeBucket mapUnkIds vNew) (vNew.map fun nId => mapUnkIds[nId]?.getD 0) := by
  refine (readInt_reads size).bind ?_
  rw [Int.toNat_natCast]
  exact Reads.repeated_map vNew fun nId member => readInt_reads (each nId member)

theorem buckets_reads (checked : s.Checked) (storable : s.Storable) :
    Reads (Reader.repeated readBucket ADDRMAN_NEW_BUCKET_COUNT)
      ((List.finRange ADDRMAN_NEW_BUCKET_COUNT).flatMap fun b => writeBucket s.numbers ((s.vvNew b).sort (· ≤ ·)))
      ((List.finRange ADDRMAN_NEW_BUCKET_COUNT).map s.indices) := by
  have each : ∀ b ∈ List.finRange ADDRMAN_NEW_BUCKET_COUNT,
      Reads readBucket (writeBucket s.numbers ((s.vvNew b).sort (· ≤ ·))) (s.indices b) := by
    intro b _
    refine readBucket_reads ?_ ?_
    · -- as many indices as ids, all below the number of new entries
      have few : (s.indices b).toFinset ⊆ Finset.Ico 0 s.nNew := by
        intro j member
        rw [List.mem_toFinset] at member
        exact Finset.mem_Ico.mpr (checked.index_within member)
      have size := Finset.card_le_card few
      have length := checked.length_new
      rw [List.toFinset_card_of_nodup (checked.nodup_indices b), Int.card_Ico, indices, List.length_map] at size
      exact FitsInt.of_le storable.nNew (by omega) (by omega)
    · intro nId member
      have index : s.numbers[nId]?.getD 0 ∈ s.indices b := List.mem_map_of_mem member
      obtain ⟨nonneg, below⟩ := checked.index_within index
      exact FitsInt.of_le storable.nNew nonneg (by omega)
  have reads := Reads.repeated_map (List.finRange ADDRMAN_NEW_BUCKET_COUNT) each
  rw [List.length_finRange] at reads
  exact reads

section

variable [Hashing]

/-- What the reader makes of the file. -/
def reload (s : CAddrMan) : Option CAddrMan :=
  rebuild s.nKey s.nNew s.nTried ADDRMAN_NEW_BUCKET_COUNT (s.newEntries.map fun entry => entry.2.onDisk)
    (s.triedEntries.map fun entry => entry.2.onDisk) ((List.finRange ADDRMAN_NEW_BUCKET_COUNT).map s.indices)

omit [Hashing] in
theorem infos_reads (storable : s.Storable) {entries : List (Int × CAddrInfo)}
    (found : ∀ entry ∈ entries, s.mapInfo[entry.1]? = some entry.2) {n : Int} (length : (entries.length : Int) = n) :
    Reads (Reader.repeated CAddrInfo.unserialize n.toNat) ((entries.map Prod.snd).flatMap CAddrInfo.serialize)
      (entries.map fun entry => entry.2.onDisk) := by
  have reads := Reads.repeated_map entries fun entry member =>
    CAddrInfo.reads (storable.entry entry.1 entry.2 (found entry member))
  rw [List.flatMap_map, ← length, Int.toNat_natCast]
  exact reads

theorem serialize_reads (checked : s.Checked) (storable : s.Storable) (built : s.reload = some next) :
    Reads unserialize s.serialize next := by
  have written : (numberNew s.nNew 0 ∅ s.mapInfo.toList).1 = s.newEntries.map Prod.snd := by
    refine numberNew_written ?_
    rw [zero_add]
    exact checked.length_new
  have listed : listTried s.nTried 0 s.mapInfo.toList = s.triedEntries.map Prod.snd := by
    refine listTried_eq ?_
    rw [zero_add]
    exact checked.length_tried
  have count : FitsInt 4 ADDRMAN_NEW_BUCKET_COUNT := ⟨by decide, by decide⟩
  rw [serialize]
  simp only [written, listed]
  refine (Reads.byte 0).bind ?_
  refine (readBytes_reads storable.nKey).bind ?_
  refine (readInt_reads storable.nNew).bind ?_
  refine (readInt_reads storable.nTried).bind ?_
  refine (readInt_reads count).bind ?_
  refine (infos_reads storable (fun entry member => (mem_newEntries.mp member).1) checked.length_new).bind ?_
  refine (infos_reads storable (fun entry member => (mem_triedEntries.mp member).1) checked.length_tried).bind ?_
  rw [← List.append_nil (List.flatMap _ _)]
  refine (buckets_reads checked storable).bind ?_
  intro rest
  rw [reload] at built
  rw [built]
  rfl

end

/-! ## Rebuilding the tables -/

/-- The entries have the ids from 0 on. -/
structure Loaded (infos : List CAddrInfo) (s : CAddrMan) : Prop where
  entry : ∀ (nId : Int) (info : CAddrInfo), s.mapInfo[nId]? = some info ↔
    ∃ (k : Nat) (old : CAddrInfo), infos[k]? = some old ∧ nId = k ∧ info = { old with nRandomPos := k }
  addresses : ∀ (k : Nat) (info : CAddrInfo), infos[k]? = some info → s.mapAddr[info.service.addr]? = some (k : Int)
  vRandom : s.vRandom = (List.range infos.length).map Int.ofNat

/-- What the loops over the entries leave alone. -/
structure SameCounts (s next : CAddrMan) : Prop where
  nKey : next.nKey = s.nKey
  nNew : next.nNew = s.nNew
  nTried : next.nTried = s.nTried
  vvNew : next.vvNew = s.vvNew

theorem SameCounts.trans {last : CAddrMan} (first : s.SameCounts next) (second : next.SameCounts last) :
    s.SameCounts last :=
  ⟨second.nKey.trans first.nKey, second.nNew.trans first.nNew, second.nTried.trans first.nTried,
    second.vvNew.trans first.vvNew⟩

theorem loaded_empty (nKey : Bytes) (nNew nTried : Int) : Loaded [] { empty nKey with nNew, nTried } where
  entry := by simp [empty]
  addresses := by simp
  vRandom := rfl

theorem Loaded.enter {infos : List CAddrInfo} (loaded : Loaded infos s)
    (fresh : info.netAddr ∉ infos.map CAddrInfo.netAddr) : Loaded (infos ++ [info]) (s.enter infos.length info) where
  entry := by
    intro nId last
    have length : s.vRandom.length = infos.length := by simp [loaded.vRandom]
    simp only [CAddrMan.enter, lookup_insert, getElem?_concat_eq_some, length]
    split
    · rename_i here
      constructor
      · intro found
        exact ⟨infos.length, info, .inr ⟨rfl, rfl⟩, here, (Option.some.inj found).symm⟩
      · rintro ⟨k, old, before | ⟨rfl, rfl⟩, same, rfl⟩
        · have within := (List.getElem?_eq_some_iff.mp before).1
          omega
        · rfl
    · rename_i elsewhere
      rw [loaded.entry]
      constructor
      · rintro ⟨k, old, before, same, rfl⟩
        exact ⟨k, old, .inl before, same, rfl⟩
      · rintro ⟨k, old, before | ⟨rfl, rfl⟩, same, rfl⟩
        · exact ⟨k, old, before, same, rfl⟩
        · exact absurd same elsewhere
  addresses := by
    intro k old found
    simp only [CAddrMan.enter, lookup_insert]
    rcases getElem?_concat_eq_some.mp found with before | ⟨rfl, rfl⟩
    · have different : old.service.addr ≠ info.service.addr := by
        intro same
        have same : old.netAddr = info.netAddr := same
        exact fresh (same ▸ List.mem_map_of_mem (List.mem_of_getElem? before))
      rw [if_neg different]
      exact loaded.addresses k old before
    · rw [if_pos rfl]
  vRandom := by
    rw [CAddrMan.enter, loaded.vRandom, List.length_append, List.length_singleton, List.range_succ, List.map_append]
    rfl

theorem fresh_of_distinct {done rest : List CAddrInfo}
    (distinct : ((done ++ info :: rest).map CAddrInfo.netAddr).Nodup) :
    info.netAddr ∉ done.map CAddrInfo.netAddr := by
  rw [List.map_append, List.map_cons, List.nodup_append] at distinct
  intro member
  exact distinct.2.2 _ member _ List.mem_cons_self rfl

section

variable [Hashing]

theorem loadNew_spec {done infos : List CAddrInfo} (loaded : Loaded done s)
    (distinct : ((done ++ infos).map CAddrInfo.netAddr).Nodup) :
    ∃ next, loadNew ADDRMAN_NEW_BUCKET_COUNT done.length infos s = next ∧ Loaded (done ++ infos) next ∧
      s.SameCounts next ∧ next.vvTried = s.vvTried := by
  induction infos generalizing done s with
  | nil =>
      refine ⟨s, rfl, ?_, ⟨rfl, rfl, rfl, rfl⟩, rfl⟩
      rw [List.append_nil]
      exact loaded
  | cons info rest ih =>
      have entered := loaded.enter (fresh_of_distinct distinct)
      rw [List.append_cons] at distinct ⊢
      obtain ⟨next, run, whole, same, tried⟩ := ih entered distinct
      rw [List.length_append, List.length_singleton, Nat.cast_succ] at run
      have kept : s.SameCounts (s.enter done.length info) := ⟨rfl, rfl, rfl, rfl⟩
      exact ⟨next, run, whole, kept.trans same, tried⟩

theorem loadTried_full {infos : List CAddrInfo} {b : Fin ADDRMAN_TRIED_BUCKET_COUNT} {nLost : Int}
    (same : ∀ info ∈ infos, info.getTriedBucket s.nKey = b) {nId : Int} {known : CAddrInfo}
    (found : (loadTried infos nLost s).1.mapInfo[nId]? = some known) :
    s.mapInfo[nId]? = some known ∨
      ∃ info ∈ infos.take (ADDRMAN_TRIED_BUCKET_SIZE - (s.vvTried b).length), known.service = info.service := by
  induction infos generalizing s nLost with
  | nil => exact .inl found
  | cons info rest ih =>
      have home := same info List.mem_cons_self
      have others : ∀ other ∈ rest, other.getTriedBucket s.nKey = b :=
        fun other member => same other (List.mem_cons_of_mem info member)
      rw [loadTried, home] at found
      by_cases room : (s.vvTried b).length < ADDRMAN_TRIED_BUCKET_SIZE
      · rw [if_pos room] at found
        obtain ⟨left, size⟩ := Nat.exists_eq_add_of_lt room
        have longer : ((s.enterTried info).vvTried b).length = (s.vvTried b).length + 1 := by
          simp [enterTried, home]
        have taken : (info :: rest).take (ADDRMAN_TRIED_BUCKET_SIZE - (s.vvTried b).length) =
            info :: rest.take (ADDRMAN_TRIED_BUCKET_SIZE - ((s.enterTried info).vvTried b).length) := by
          rw [longer, size, show (s.vvTried b).length + left + 1 - (s.vvTried b).length = left + 1 by omega,
            List.take_succ_cons, show (s.vvTried b).length + left + 1 - ((s.vvTried b).length + 1) = left by omega]
        rw [taken]
        rcases ih (s := s.enterTried info) others found with entered | ⟨other, member, service⟩
        · rw [enterTried, enter, Std.ExtTreeMap.getElem?_insert] at entered
          split at entered
          · rw [Option.some.injEq] at entered
            exact .inr ⟨info, List.mem_cons_self, entered ▸ rfl⟩
          · exact .inl entered
        · exact .inr ⟨other, List.mem_cons_of_mem info member, service⟩
      · rw [if_neg room] at found
        rcases ih others found with before | ⟨other, member, _⟩
        · exact .inl before
        · rw [Nat.sub_eq_zero_of_le (Nat.not_lt.mp room)] at member
          exact absurd member List.not_mem_nil

theorem loadTried_spec {done rest : List CAddrInfo} {nLost : Int} (loaded : Loaded done s)
    (count : s.nIdCount = done.length) (distinct : ((done ++ rest).map CAddrInfo.netAddr).Nodup)
    (room : ∀ b, (s.vvTried b).length + rest.countP (fun info => info.getTriedBucket s.nKey = b) ≤
      ADDRMAN_TRIED_BUCKET_SIZE) :
    ∃ next, loadTried rest nLost s = (next, nLost) ∧ Loaded (done ++ rest.map CAddrInfo.tried) next ∧
      s.SameCounts next ∧
      (∀ j : Int, occurrences next.vvTried j =
        occurrences s.vvTried j + if done.length ≤ j ∧ j < done.length + rest.length then 1 else 0) ∧
      ∑ b, ((next.vvTried b).length : Int) = ∑ b, ((s.vvTried b).length : Int) + rest.length := by
  induction rest generalizing done s with
  | nil =>
      refine ⟨s, rfl, ?_, ⟨rfl, rfl, rfl, rfl⟩, ?_, ?_⟩
      · rw [List.map_nil, List.append_nil]
        exact loaded
      · intro j
        rw [if_neg (by simp), add_zero]
      · simp
  | cons info rest ih =>
      have home := room (info.getTriedBucket s.nKey)
      rw [List.countP_cons_of_pos (by simp)] at home
      have fresh : info.tried.netAddr ∉ done.map CAddrInfo.netAddr := @fresh_of_distinct info done rest distinct
      have entered : Loaded (done ++ [info.tried]) (s.enter s.nIdCount info.tried) := count ▸ loaded.enter fresh
      have kept : s.SameCounts (s.enterTried info) := ⟨rfl, rfl, rfl, rfl⟩
      have distinct' : ((done ++ [info.tried] ++ rest).map CAddrInfo.netAddr).Nodup := by
        simpa [CAddrInfo.netAddr, CAddrInfo.tried] using distinct
      have room' : ∀ b, ((s.enterTried info).vvTried b).length +
          rest.countP (fun other => other.getTriedBucket (s.enterTried info).nKey = b) ≤ ADDRMAN_TRIED_BUCKET_SIZE := by
        intro b
        have bucket := room b
        rw [List.countP_cons] at bucket
        change (Function.update s.vvTried _ _ b).length +
          rest.countP (fun other => other.getTriedBucket s.nKey = b) ≤ ADDRMAN_TRIED_BUCKET_SIZE
        rw [Function.update_apply]
        by_cases here : b = info.getTriedBucket s.nKey
        · rw [if_pos here, List.length_append, List.length_singleton, ← here]
          rw [if_pos (by simp [here])] at bucket
          omega
        · rw [if_neg here]
          omega
      obtain ⟨next, run, whole, same, occur, lengths⟩ :=
        @ih (s.enterTried info) (done ++ [info.tried]) ⟨entered.entry, entered.addresses, entered.vRandom⟩
          (by simp [enterTried, count]) distinct' room'
      refine ⟨next, ?_, ?_, kept.trans same, ?_, ?_⟩
      · rw [loadTried, if_pos (by omega), run]
      · rw [List.map_cons, List.append_cons]
        exact whole
      · intro j
        have update : occurrences (s.enterTried info).vvTried j + _ = _ :=
          occurrences_update s.vvTried (info.getTriedBucket s.nKey) (s.vvTried (info.getTriedBucket s.nKey) ++ [s.nIdCount]) j
        rw [List.count_append, List.count_singleton, count] at update
        have length : ((done ++ [info.tried]).length : Int) = done.length + 1 := by simp
        rw [occur j, length, List.length_cons, Nat.cast_succ]
        by_cases here : j = done.length
        · rw [if_neg (by omega), if_pos (by omega)]
          rw [if_pos (by simp [here])] at update
          omega
        · have same : (done.length + 1 ≤ j ∧ j < done.length + 1 + rest.length) ↔
              (done.length ≤ j ∧ j < done.length + (rest.length + 1)) := by omega
          rw [if_neg (by rw [beq_iff_eq]; exact Ne.symm here)] at update
          simp only [same]
          omega
      · have update := lengths_update s.vvTried (info.getTriedBucket s.nKey)
          (s.vvTried (info.getTriedBucket s.nKey) ++ [s.nIdCount])
        rw [List.length_append, List.length_singleton] at update
        rw [lengths, List.length_cons]
        simp only [enterTried]
        push_cast at update ⊢
        omega
end

/-! ## Filling the new buckets -/

/-- What the loops over the buckets leave alone. -/
structure SameIndexes (s next : CAddrMan) : Prop where
  mapAddr : next.mapAddr = s.mapAddr
  vRandom : next.vRandom = s.vRandom
  nNew : next.nNew = s.nNew
  nTried : next.nTried = s.nTried
  vvTried : next.vvTried = s.vvTried

theorem SameIndexes.trans {last : CAddrMan} (first : s.SameIndexes next) (second : next.SameIndexes last) :
    s.SameIndexes last :=
  ⟨second.mapAddr.trans first.mapAddr, second.vRandom.trans first.vRandom, second.nNew.trans first.nNew,
    second.nTried.trans first.nTried, second.vvTried.trans first.vvTried⟩

/-- Each index puts its entry in the bucket and counts it, as long as the entry is in few buckets. -/
theorem loadIndices_spec {items : List (Fin ADDRMAN_NEW_BUCKET_COUNT × Int)}
    (known : ∀ item ∈ items, ∃ info, s.mapInfo[item.2]? = some info)
    (few : ∀ (nId : Int) (info : CAddrInfo), s.mapInfo[nId]? = some info →
      info.nRefCount + (items.map Prod.snd).count nId ≤ ADDRMAN_NEW_BUCKETS_PER_ADDRESS) :
    ∃ next, items.foldlM (loadIndex ADDRMAN_NEW_BUCKET_COUNT) s = some next ∧ s.SameIndexes next ∧
      (∀ nId : Int, next.mapInfo[nId]? = s.mapInfo[nId]?.map fun info =>
        { info with nRefCount := info.nRefCount + (items.map Prod.snd).count nId }) ∧
      ∀ b nId, nId ∈ next.vvNew b ↔ nId ∈ s.vvNew b ∨ (b, nId) ∈ items := by
  induction items generalizing s with
  | nil =>
      refine ⟨s, rfl, ⟨rfl, rfl, rfl, rfl, rfl⟩, ?_, by simp⟩
      intro nId
      simp
  | cons item rest ih =>
      obtain ⟨b, nId⟩ := item
      obtain ⟨info, found⟩ := known (b, nId) List.mem_cons_self
      simp only [List.map_cons, List.count_cons] at few ⊢
      have mine := few nId info found
      rw [if_pos (beq_self_eq_true nId)] at mine
      have another : info.nRefCount < ADDRMAN_NEW_BUCKETS_PER_ADDRESS := by omega
      have step : loadIndex ADDRMAN_NEW_BUCKET_COUNT s (b, nId) = some (s.enterBucket b nId info) := by
        simp only [loadIndex, found, Option.bind_eq_bind, Option.bind_some, another, and_self, if_true]
        rfl
      have lookup : ∀ other : Int, (s.enterBucket b nId info).mapInfo[other]? =
          if other = nId then some { info with nRefCount := info.nRefCount + 1 } else s.mapInfo[other]? :=
        fun other => setInfo_mapInfo
      have known' : ∀ item ∈ rest, ∃ info', (s.enterBucket b nId info).mapInfo[item.2]? = some info' := by
        intro other later
        rw [lookup]
        split
        · exact ⟨_, rfl⟩
        · exact known other (List.mem_cons_of_mem (b, nId) later)
      have few' : ∀ (other : Int) (info' : CAddrInfo), (s.enterBucket b nId info).mapInfo[other]? = some info' →
          info'.nRefCount + (rest.map Prod.snd).count other ≤ ADDRMAN_NEW_BUCKETS_PER_ADDRESS := by
        intro other info' found'
        rw [lookup] at found'
        split at found'
        · rename_i here
          cases found'
          rw [here]
          push_cast at mine ⊢
          omega
        · rename_i elsewhere
          have bound := few other info' found'
          rw [if_neg (by rw [beq_iff_eq]; exact Ne.symm elsewhere), add_zero] at bound
          exact bound
      obtain ⟨next, run, same, entry, members⟩ := ih known' few'
      rw [List.foldlM_cons, step]
      have kept : s.SameIndexes (s.enterBucket b nId info) := ⟨rfl, rfl, rfl, rfl, rfl⟩
      refine ⟨next, run, kept.trans same, ?_, ?_⟩
      · intro other
        rw [entry other, lookup]
        by_cases here : other = nId
        · subst here
          rw [if_pos rfl, if_pos (beq_self_eq_true other), found, Option.map_some, Option.map_some]
          push_cast
          rw [add_assoc, add_comm (1 : Int)]
        · rw [if_neg here, if_neg (by rw [beq_iff_eq]; exact Ne.symm here)]
          rfl
      · intro c other
        rw [members c other, List.mem_cons, Prod.mk.injEq, ← or_assoc]
        refine or_congr_left ?_
        change other ∈ Function.update s.vvNew b (insert nId (s.vvNew b)) c ↔ _
        rw [Function.update_apply]
        by_cases here : c = b
        · subst here
          simp [or_comm]
        · simp [here]

theorem inBuckets_family (family : Fin ADDRMAN_NEW_BUCKET_COUNT → List Int) :
    inBuckets ((List.finRange ADDRMAN_NEW_BUCKET_COUNT).map family) =
      (List.finRange ADDRMAN_NEW_BUCKET_COUNT).flatMap fun b => (family b).map (b, ·) := by
  rw [inBuckets, ← List.map_prod_left_eq_zip, List.flatMap_map]

def items (s : CAddrMan) : List (Fin ADDRMAN_NEW_BUCKET_COUNT × Int) :=
  inBuckets ((List.finRange ADDRMAN_NEW_BUCKET_COUNT).map s.indices)

theorem mem_items {b : Fin ADDRMAN_NEW_BUCKET_COUNT} {j : Int} : (b, j) ∈ s.items ↔ j ∈ s.indices b := by
  rw [items, inBuckets_family, List.mem_flatMap]
  constructor
  · rintro ⟨c, -, member⟩
    obtain ⟨i, inside, same⟩ := List.mem_map.mp member
    cases same
    exact inside
  · intro member
    exact ⟨b, List.mem_finRange b, List.mem_map_of_mem member⟩

namespace Checked

theorem fileOrder_nodup (checked : s.Checked) : s.fileOrder.Nodup := by
  have all : s.mapInfo.toList.Nodup := List.Nodup.of_map Prod.fst (toList_keys_nodup s.mapInfo)
  rw [fileOrder, List.nodup_append]
  refine ⟨all.filter isReferenced, all.filter isTried, ?_⟩
  rintro ⟨nId, info⟩ isNew other isTried rfl
  have found := (mem_newEntries.mp isNew).1
  have unreferenced := ((checked.checks nId info found).tried (mem_triedEntries.mp isTried).2).2
  exact (mem_newEntries.mp isNew).2 unreferenced

theorem place_unique (checked : s.Checked) {k i : Nat} {other : Int} {another : CAddrInfo}
    (first : s.fileOrder[k]? = some (nId, info)) (second : s.fileOrder[i]? = some (other, another))
    (same : nId = other) : k = i := by
  subst same
  have found := checked.mem_fileOrder.mp (List.mem_of_getElem? first)
  have found' := checked.mem_fileOrder.mp (List.mem_of_getElem? second)
  rw [found] at found'
  cases found'
  have within := (List.getElem?_eq_some_iff.mp first).1
  exact (List.getElem?_inj within checked.fileOrder_nodup).mp (first.trans second.symm)

theorem fileOrder_of_new {k : Nat} (listed : s.newEntries[k]? = some (nId, info)) :
    s.fileOrder[k]? = some (nId, info) := by
  rw [fileOrder, List.getElem?_append_left (List.getElem?_eq_some_iff.mp listed).1]
  exact listed

theorem mem_indices_iff (checked : s.Checked) {b : Fin ADDRMAN_NEW_BUCKET_COUNT} {k : Nat}
    (listed : s.fileOrder[k]? = some (nId, info)) : (k : Int) ∈ s.indices b ↔ nId ∈ s.vvNew b := by
  rw [checked.mem_indices]
  constructor
  · rintro ⟨i, other, another, found, same, member⟩
    obtain rfl : k = i := by exact_mod_cast same
    rw [fileOrder_of_new found] at listed
    cases listed
    exact member
  · intro member
    obtain ⟨another, isNew⟩ := checked.of_new member
    obtain ⟨i, found⟩ := List.mem_iff_getElem?.mp isNew
    obtain rfl := checked.place_unique listed (fileOrder_of_new found) rfl
    exact ⟨k, nId, another, found, rfl, member⟩

theorem count_items (checked : s.Checked) {k : Nat} (listed : s.fileOrder[k]? = some (nId, info)) :
    (s.items.map Prod.snd).count (k : Int) = references s.vvNew nId := by
  have flat : s.items.map Prod.snd = (List.finRange ADDRMAN_NEW_BUCKET_COUNT).flatMap s.indices := by
    rw [items, inBuckets_family, List.map_flatMap]
    simp [Function.comp_def]
  rw [flat, count_flatMap_finRange]
  refine Finset.sum_congr rfl fun b _ => ?_
  by_cases member : nId ∈ s.vvNew b
  · rw [if_pos member]
    exact List.count_eq_one_of_mem (checked.nodup_indices b) ((checked.mem_indices_iff listed).mpr member)
  · rw [if_neg member, List.count_eq_zero, checked.mem_indices_iff listed]
    exact member

theorem nRefCount_eq (checked : s.Checked) (found : s.mapInfo[nId]? = some info) :
    info.nRefCount = references s.vvNew nId := by
  have placed := checked.placed nId
  unfold PlacedAt at placed
  rw [status_of_found found] at placed
  exact placed.1.trans (add_zero _)

theorem addresses_nodup (checked : s.Checked) : (s.fileOrder.map fun entry => entry.2.netAddr).Nodup := by
  refine List.Nodup.map_on ?_ checked.fileOrder_nodup
  rintro ⟨nId, info⟩ listed ⟨other, another⟩ otherListed same
  have found := checked.mem_fileOrder.mp listed
  have found' := checked.mem_fileOrder.mp otherListed
  obtain rfl := checked.address_inj found found' same
  rw [found] at found'
  cases found'
  rfl

end Checked

/-! ## The tables after the file was read -/

/-- The entries have new ids, in the order of the file. -/
structure Reloaded (s next : CAddrMan) : Prop where
  entry : ∀ (nId : Int) (info : CAddrInfo), next.mapInfo[nId]? = some info ↔
    ∃ (k : Nat) (other : Int) (old : CAddrInfo), s.fileOrder[k]? = some (other, old) ∧ nId = k ∧
      info = { old with nLastTry := 0, nRandomPos := k }
  addresses : ∀ (k : Nat) (other : Int) (old : CAddrInfo), s.fileOrder[k]? = some (other, old) →
    next.mapAddr[old.service.addr]? = some (k : Int)
  vRandom : next.vRandom = (List.range s.fileOrder.length).map Int.ofNat
  nNew : next.nNew = s.nNew
  nTried : next.nTried = s.nTried
  vvNew : ∀ b j, j ∈ next.vvNew b ↔ j ∈ s.indices b
  occurrences : ∀ j : Int, occurrences next.vvTried j =
    if s.newEntries.length ≤ j ∧ j < s.fileOrder.length then 1 else 0
  lengths : next.nTried = ∑ b, ((next.vvTried b).length : Int)

namespace Reloaded

theorem positions (reloaded : s.Reloaded next) : Indexes next.vRandom next.position := by
  intro nId i
  rw [reloaded.vRandom, List.getElem?_map, position, Option.map_eq_some_iff, Option.map_eq_some_iff]
  constructor
  · rintro ⟨info, found, rfl⟩
    obtain ⟨k, other, old, listed, rfl, rfl⟩ := (reloaded.entry nId info).mp found
    exact ⟨k, List.getElem?_range (List.getElem?_eq_some_iff.mp listed).1, rfl⟩
  · rintro ⟨k, found, rfl⟩
    obtain ⟨within, same⟩ := List.getElem?_eq_some_iff.mp found
    rw [List.getElem_range] at same
    subst same
    rw [List.length_range] at within
    have listed := List.getElem?_eq_getElem within
    exact ⟨_, (reloaded.entry (Int.ofNat i) _).mpr ⟨i, _, _, listed, rfl, rfl⟩, rfl⟩

variable (checked : s.Checked) (reloaded : s.Reloaded next)
include checked reloaded

theorem references_eq {k : Nat} (listed : s.fileOrder[k]? = some (nId, info)) :
    references next.vvNew k = references s.vvNew nId := by
  refine Finset.sum_congr rfl fun b _ => ?_
  have same : (k : Int) ∈ next.vvNew b ↔ nId ∈ s.vvNew b :=
    (reloaded.vvNew b k).trans (checked.mem_indices_iff listed)
  simp only [same]

theorem occurrences_eq {k : Nat} (listed : s.fileOrder[k]? = some (nId, info)) :
    CAddrMan.occurrences next.vvTried k = CAddrMan.occurrences s.vvTried nId := by
  have found := checked.mem_fileOrder.mp (List.mem_of_getElem? listed)
  have within := (List.getElem?_eq_some_iff.mp listed).1
  have placed := checked.placed nId
  unfold PlacedAt at placed
  rw [status_of_found found] at placed
  rw [reloaded.occurrences k]
  cases kind : info.fInTried with
  | true =>
      have once : CAddrMan.occurrences s.vvTried nId = 1 := (kind ▸ placed.2).2
      have unreferenced := ((checked.checks nId info found).tried kind).2
      have late : s.newEntries.length ≤ k := by
        refine Nat.le_of_not_lt fun early => ?_
        rw [fileOrder, List.getElem?_append_left early] at listed
        exact (mem_newEntries.mp (List.mem_of_getElem? listed)).2 unreferenced
      rw [once, if_pos (by omega)]
  | false =>
      have outside : CAddrMan.occurrences s.vvTried nId = 0 := (kind ▸ placed.2).2.2
      have early : k < s.newEntries.length := by
        refine Nat.lt_of_not_le fun late => ?_
        rw [fileOrder, List.getElem?_append_right late] at listed
        have isTried := (mem_triedEntries.mp (List.mem_of_getElem? listed)).2
        rw [kind] at isTried
        cases isTried
      rw [outside, if_neg (by omega)]

theorem placed (j : Int) : next.PlacedAt (fun _ => 0) j := by
  unfold PlacedAt
  cases found : next.mapInfo[j]? with
  | none =>
      have absent : ∀ k : Nat, k < s.fileOrder.length → j ≠ k := by
        rintro k within rfl
        have listed := List.getElem?_eq_getElem within
        rw [(reloaded.entry k _).mpr ⟨k, _, _, listed, rfl, rfl⟩] at found
        cases found
      have nowhere : references next.vvNew j = 0 := by
        refine Finset.sum_eq_zero fun b _ => if_neg fun member => ?_
        obtain ⟨k, nId, info, listed, same, -⟩ := checked.mem_indices.mp ((reloaded.vvNew b j).mp member)
        have within := (List.getElem?_eq_some_iff.mp (Checked.fileOrder_of_new listed)).1
        exact absent k within same
      have untried : CAddrMan.occurrences next.vvTried j = 0 := by
        rw [reloaded.occurrences j, if_neg]
        rintro ⟨low, high⟩
        exact absent j.toNat (by omega) (by omega)
      rw [status, found]
      exact ⟨rfl, nowhere, untried⟩
  | some info =>
      obtain ⟨k, nId, old, listed, rfl, rfl⟩ := (reloaded.entry j info).mp found
      have before := checked.placed nId
      unfold PlacedAt at before
      rw [status_of_found (checked.mem_fileOrder.mp (List.mem_of_getElem? listed))] at before
      rw [status_of_found found, reloaded.references_eq checked listed, reloaded.occurrences_eq checked listed]
      exact before

theorem checked_next : next.Checked := by
  have before : ∀ (nId : Int) (info : CAddrInfo), next.mapInfo[nId]? = some info →
      ∃ (k : Nat) (other : Int) (old : CAddrInfo), s.fileOrder[k]? = some (other, old) ∧ nId = k ∧
        info = { old with nLastTry := 0, nRandomPos := k } ∧ s.Checks other old := by
    intro nId info found
    obtain ⟨k, other, old, listed, same, entry⟩ := (reloaded.entry nId info).mp found
    have known := checked.mem_fileOrder.mp (List.mem_of_getElem? listed)
    exact ⟨k, other, old, listed, same, entry, checked.checks other old known⟩
  refine .of_indexes reloaded.positions ?addresses reloaded.lengths ?total (reloaded.placed checked) ?timely
  case addresses =>
    intro nId info found
    obtain ⟨k, other, old, listed, rfl, rfl, -⟩ := before nId info found
    exact reloaded.addresses k other old listed
  case total =>
    have tried := checked.length_tried
    have new := checked.length_new
    rw [reloaded.vRandom, List.length_map, List.length_range, reloaded.nTried, reloaded.nNew, fileOrder,
      List.length_append]
    omega
  case timely =>
    intro nId info found
    obtain ⟨k, other, old, listed, rfl, rfl, checks⟩ := before nId info found
    exact ⟨le_refl 0, checks.nLastSuccess, fun isTried => (checks.tried isTried).1⟩

end Reloaded

section

variable [Hashing]

def Fits (s : CAddrMan) : Prop :=
  ∀ b, s.triedEntries.countP (fun entry => entry.2.getTriedBucket s.nKey = b) ≤ ADDRMAN_TRIED_BUCKET_SIZE

omit [Hashing] in
theorem Checked.loaded_eq (checked : s.Checked) :
    (s.newEntries.map fun entry => entry.2.onDisk) ++
        (s.triedEntries.map fun entry => entry.2.onDisk).map CAddrInfo.tried =
      s.fileOrder.map fun entry => entry.2.loaded := by
  rw [fileOrder, List.map_append, List.map_map]
  congr 1
  · refine List.map_congr_left fun entry isNew => ?_
    obtain ⟨found, referenced⟩ := mem_newEntries.mp isNew
    rw [CAddrInfo.loaded, (checked.referenced_iff found).mp referenced]
    rfl
  · refine List.map_congr_left fun entry isTried => ?_
    rw [CAddrInfo.loaded, (mem_triedEntries.mp isTried).2]
    rfl

/-- Without new entries, and with all the tried ones in one bucket, those beyond its size are lost. -/
theorem reload_full {b : Fin ADDRMAN_TRIED_BUCKET_COUNT} (noNew : s.newEntries = []) (noItems : s.items = [])
    (same : ∀ entry ∈ s.triedEntries, entry.2.onDisk.getTriedBucket s.nKey = b) :
    ∃ next, s.reload = some next ∧ ∀ (nId : Int) (known : CAddrInfo), next.mapInfo[nId]? = some known →
      ∃ entry ∈ s.triedEntries.take ADDRMAN_TRIED_BUCKET_SIZE, known.service = entry.2.service := by
  have alike : ∀ info ∈ s.triedEntries.map fun entry => entry.2.onDisk, info.getTriedBucket s.nKey = b := by
    intro info member
    obtain ⟨entry, listed, rfl⟩ := List.mem_map.mp member
    exact same entry listed
  rw [items] at noItems
  rw [reload, rebuild, noNew, noItems]
  refine ⟨_, rfl, fun nId known found => ?_⟩
  let start : CAddrMan := { empty s.nKey with nNew := s.nNew, nTried := s.nTried, nIdCount := s.nNew }
  have loaded : (loadTried (s.triedEntries.map fun entry => entry.2.onDisk) 0 start).1.mapInfo[nId]? = some known :=
    found
  rcases loadTried_full (s := start) alike loaded with before | ⟨info, member, service⟩
  · exact absurd before (by simp [start, empty])
  · rw [← List.map_take] at member
    obtain ⟨entry, listed, rfl⟩ := List.mem_map.mp member
    exact ⟨entry, listed, service⟩

theorem reload_spec (checked : s.Checked) (fits : s.Fits) : ∃ next, s.reload = some next ∧ s.Reloaded next := by
  have distinct : (((s.newEntries.map fun entry => entry.2.onDisk) ++
      s.triedEntries.map fun entry => entry.2.onDisk).map CAddrInfo.netAddr).Nodup := by
    have nodup := checked.addresses_nodup
    rw [fileOrder, List.map_append] at nodup
    rw [List.map_append, List.map_map, List.map_map]
    exact nodup
  obtain ⟨first, runNew, loadedNew, sameNew, noneTried⟩ := loadNew_spec (loaded_empty s.nKey s.nNew s.nTried)
    (distinct.sublist ((List.sublist_append_left _ _).map CAddrInfo.netAddr))
  rw [List.nil_append] at loadedNew
  have room : ∀ b, (first.vvTried b).length + (s.triedEntries.map fun entry => entry.2.onDisk).countP
      (fun info => info.getTriedBucket first.nKey = b) ≤ ADDRMAN_TRIED_BUCKET_SIZE := by
    intro b
    rw [noneTried, sameNew.nKey, List.countP_map]
    exact (Nat.zero_add _).le.trans (fits b)
  have count : s.nNew = (s.newEntries.map fun entry => entry.2.onDisk).length := by
    rw [List.length_map, checked.length_new]
  obtain ⟨second, runTried, loaded, sameTried, occurs, lengths⟩ :=
    @loadTried_spec { first with nIdCount := s.nNew } _ _ _ 0
      ⟨loadedNew.entry, loadedNew.addresses, loadedNew.vRandom⟩ count distinct room
  rw [checked.loaded_eq] at loaded
  have entry : ∀ (nId : Int) (info : CAddrInfo), second.mapInfo[nId]? = some info ↔
      ∃ (k : Nat) (other : Int) (old : CAddrInfo), s.fileOrder[k]? = some (other, old) ∧ nId = k ∧
        info = { old.loaded with nRandomPos := k } := by
    intro nId info
    rw [loaded.entry]
    simp only [List.getElem?_map, Option.map_eq_some_iff, Prod.exists]
    constructor
    · rintro ⟨k, _, ⟨other, old, listed, rfl⟩, same, rfl⟩
      exact ⟨k, other, old, listed, same, rfl⟩
    · rintro ⟨k, other, old, listed, same, rfl⟩
      exact ⟨k, _, ⟨other, old, listed, rfl⟩, same, rfl⟩
  have known : ∀ item ∈ s.items, ∃ info, second.mapInfo[item.2]? = some info := by
    rintro ⟨b, j⟩ member
    obtain ⟨k, nId, info, listed, same, -⟩ := checked.mem_indices.mp (mem_items.mp member)
    exact ⟨_, (entry j _).mpr ⟨k, nId, info, Checked.fileOrder_of_new listed, same, rfl⟩⟩
  have few : ∀ (nId : Int) (info : CAddrInfo), second.mapInfo[nId]? = some info →
      info.nRefCount + (s.items.map Prod.snd).count nId ≤ ADDRMAN_NEW_BUCKETS_PER_ADDRESS := by
    intro nId info found
    obtain ⟨k, other, old, listed, rfl, rfl⟩ := (entry nId info).mp found
    have before := checked.mem_fileOrder.mp (List.mem_of_getElem? listed)
    have checks := checked.checks other old before
    rw [checked.count_items listed, ← checked.nRefCount_eq before]
    change 0 + old.nRefCount ≤ ADDRMAN_NEW_BUCKETS_PER_ADDRESS
    rw [zero_add]
    cases kind : old.fInTried with
    | true =>
        rw [(checks.tried kind).2]
        decide
    | false => exact (checks.new kind).2
  obtain ⟨next, runBuckets, same, counted, members⟩ :=
    @loadIndices_spec { second with nTried := second.nTried - 0 } s.items known few
  refine ⟨next, ?_, ?_⟩
  · rw [reload, rebuild]
    simp only [List.length_nil, Nat.cast_zero] at runNew
    simp only [runNew, runTried, lt_irrefl, if_false]
    exact runBuckets
  · constructor
    case entry =>
      -- the number of indices is the counter that the entry had
      have counter : ∀ (k : Nat) (other : Int) (old : CAddrInfo), s.fileOrder[k]? = some (other, old) →
          old.loaded.nRefCount + ((s.items.map Prod.snd).count (k : Int) : Nat) = old.nRefCount := by
        intro k other old listed
        rw [checked.count_items listed,
          ← checked.nRefCount_eq (checked.mem_fileOrder.mp (List.mem_of_getElem? listed))]
        exact zero_add _
      intro nId info
      rw [counted nId, Option.map_eq_some_iff]
      constructor
      · rintro ⟨found, present, rfl⟩
        obtain ⟨k, other, old, listed, rfl, rfl⟩ := (entry nId found).mp present
        refine ⟨k, other, old, listed, rfl, ?_⟩
        simp only [counter k other old listed]
        rfl
      · rintro ⟨k, other, old, listed, rfl, rfl⟩
        refine ⟨_, (entry k _).mpr ⟨k, other, old, listed, rfl, rfl⟩, ?_⟩
        simp only [counter k other old listed]
        rfl
    case addresses =>
      intro k other old listed
      rw [same.mapAddr]
      refine loaded.addresses k old.loaded ?_
      rw [List.getElem?_map, listed, Option.map_some]
    case vRandom =>
      rw [same.vRandom, ← List.length_map (fun entry : Int × CAddrInfo => entry.2.loaded)]
      exact loaded.vRandom
    case nNew => exact same.nNew.trans (sameTried.nNew.trans sameNew.nNew)
    case nTried =>
      rw [same.nTried]
      exact (sub_zero _).trans (sameTried.nTried.trans sameNew.nTried)
    case vvNew =>
      intro b j
      have none : second.vvNew b = ∅ := congrFun (sameTried.vvNew.trans sameNew.vvNew) b
      rw [members b j, mem_items, or_iff_right_iff_imp]
      intro before
      exact absurd (none ▸ before) (Finset.notMem_empty j)
    case occurrences =>
      intro j
      have nowhere : CAddrMan.occurrences first.vvTried j = 0 := by simp [CAddrMan.occurrences, noneTried, empty]
      rw [same.vvTried]
      refine (occurs j).trans ?_
      rw [fileOrder, List.length_append, nowhere, zero_add]
      simp
    case lengths =>
      rw [same.nTried, same.vvTried]
      refine ((sub_zero _).trans (sameTried.nTried.trans sameNew.nTried)).trans ?_
      refine Eq.trans ?_ lengths.symm
      simp [noneTried, empty, checked.length_tried]

end

/-! ## The round trip -/

/-- The state knows an entry, but for the time of its last try and its position in `vRandom`. -/
def Knows (s : CAddrMan) (info : CAddrInfo) : Prop :=
  ∃ (nId : Int) (old : CAddrInfo), s.mapInfo[nId]? = some old ∧ info = { old with nLastTry := 0, nRandomPos := 0 }

def InBucket (s : CAddrMan) (b : Fin ADDRMAN_NEW_BUCKET_COUNT) (ip : CNetAddr) : Prop :=
  ∃ nId ∈ s.vvNew b, s.address nId = some ip

theorem Reloaded.knows_iff (checked : s.Checked) (reloaded : s.Reloaded next) : next.Knows info ↔ s.Knows info := by
  constructor
  · rintro ⟨nId, new, found, rfl⟩
    obtain ⟨k, other, old, listed, rfl, rfl⟩ := (reloaded.entry nId new).mp found
    exact ⟨other, old, checked.mem_fileOrder.mp (List.mem_of_getElem? listed), rfl⟩
  · rintro ⟨other, old, found, rfl⟩
    obtain ⟨k, listed⟩ := List.mem_iff_getElem?.mp (checked.mem_fileOrder.mpr found)
    exact ⟨k, _, (reloaded.entry k _).mpr ⟨k, other, old, listed, rfl, rfl⟩, rfl⟩

theorem Reloaded.inBucket_iff (checked : s.Checked) (reloaded : s.Reloaded next)
    {b : Fin ADDRMAN_NEW_BUCKET_COUNT} {ip : CNetAddr} : next.InBucket b ip ↔ s.InBucket b ip := by
  have same : ∀ (k : Nat) (other : Int) (old : CAddrInfo), s.fileOrder[k]? = some (other, old) →
      next.address k = s.address other := by
    intro k other old listed
    have found := (reloaded.entry k _).mpr ⟨k, other, old, listed, rfl, rfl⟩
    rw [address_of_found found, address_of_found (checked.mem_fileOrder.mp (List.mem_of_getElem? listed))]
  constructor
  · rintro ⟨j, member, address⟩
    obtain ⟨k, nId, info, listed, rfl, old⟩ := checked.mem_indices.mp ((reloaded.vvNew b j).mp member)
    exact ⟨nId, old, (same k nId info (Checked.fileOrder_of_new listed)).symm.trans address⟩
  · rintro ⟨nId, member, address⟩
    obtain ⟨info, isNew⟩ := checked.of_new member
    obtain ⟨k, listed⟩ := List.mem_iff_getElem?.mp isNew
    refine ⟨k, (reloaded.vvNew b k).mpr (checked.mem_indices.mpr ⟨k, nId, info, listed, rfl, member⟩), ?_⟩
    exact (same k nId info (Checked.fileOrder_of_new listed)).trans address

/-- The file brings back every entry in the table and the new buckets in which it was. -/
theorem file_round_trip [Hashing] (clean : s.check_ = .ok ()) (storable : s.Storable) (fits : s.Fits) :
    ∃ next, unserialize s.serialize = some (next, []) ∧ next.check_ = .ok () ∧
      (∀ info, next.Knows info ↔ s.Knows info) ∧ ∀ b ip, next.InBucket b ip ↔ s.InBucket b ip := by
  have checked := check_eq_ok.mp clean
  obtain ⟨next, built, reloaded⟩ := reload_spec checked fits
  refine ⟨next, (serialize_reads checked storable built).whole, check_eq_ok.mpr (reloaded.checked_next checked), ?_, ?_⟩
  · intro info
    exact reloaded.knows_iff checked
  · intro b ip
    exact reloaded.inBucket_iff checked

end CAddrMan

namespace Sample

/-- A tried entry with an address that belongs to no network. -/
def triedInfo (ip : Nat) (nRandomPos : Nat) : CAddrInfo :=
  ⟨⟨⟨BitVec.ofNat 128 ip, 8333⟩, 1, 100⟩, 0, 0, 50, 0, 0, true, nRandomPos⟩

/-- Tried entries that are all in the first bucket, whatever their own bucket is. -/
def triedOnly (ips : List Nat) : CAddrMan where
  nKey := []
  nIdCount := ips.length
  mapInfo := Std.ExtTreeMap.ofList (ips.zipIdx.map fun (ip, i) => ((i : Int), triedInfo ip i))
  mapAddr := Std.ExtTreeMap.ofList (ips.zipIdx.map fun (ip, i) => (BitVec.ofNat 128 ip, (i : Int)))
  vRandom := (List.range ips.length).map Int.ofNat
  nTried := ips.length
  vvTried b := if b = 0 then (List.range ips.length).map Int.ofNat else []
  nNew := 0
  vvNew _ := ∅

def crowded : CAddrMan := triedOnly ((List.range 63).map (4 * (· + 1)) ++ [1024, 1028])

/-- A tried entry and an entry that is in two new buckets. -/
def twoTables : CAddrMan where
  nKey := [7]
  nIdCount := 6
  mapInfo := Std.ExtTreeMap.ofList
    [((2 : Int), triedInfo 4 0), (5, ⟨⟨⟨8, 8333⟩, 1, 200⟩, 60, 16, 0, 3, 2, false, 1⟩)]
  mapAddr := Std.ExtTreeMap.ofList [((4 : CNetAddr), (2 : Int)), (8, 5)]
  vRandom := [2, 5]
  nTried := 1
  vvTried b := if b = 3 then [2] else []
  nNew := 1
  vvNew b := if b = 9 ∨ b = 20 then {5} else ∅

theorem storable_of_toList {s : CAddrMan} (nKey : s.nKey.length ≤ MAX_SIZE) (nNew : FitsInt 4 s.nNew)
    (nTried : FitsInt 4 s.nTried) (entries : ∀ entry ∈ s.mapInfo.toList,
      FitsInt 8 entry.2.nLastSuccess ∧ FitsInt 4 entry.2.nAttempts) : s.Storable := by
  refine ⟨nKey, nNew, nTried, fun nId info found => ?_⟩
  have listed := Std.ExtTreeMap.mem_toList_iff_getElem?_eq_some.mpr found
  exact ⟨(entries (nId, info) listed).1, (entries (nId, info) listed).2⟩

theorem file_round_trip_two :
    ∃ next, CAddrMan.unserialize twoTables.serialize = some (next, []) ∧ next.check_ = .ok () ∧
      (∀ info, next.Knows info ↔ twoTables.Knows info) ∧ ∀ b ip, next.InBucket b ip ↔ twoTables.InBucket b ip :=
  CAddrMan.file_round_trip (by decide +kernel)
    (storable_of_toList (by decide) (by decide) (by decide) (by decide)) (by
      unfold CAddrMan.Fits
      decide +kernel)

/-- One of the entries finds its tried bucket full and is lost. -/
theorem file_round_trip_loses :
    crowded.check_ = .ok () ∧ crowded.Storable ∧
      ∃ next, CAddrMan.unserialize crowded.serialize = some (next, []) ∧
        crowded.Knows (triedInfo 1028 0) ∧ ¬ next.Knows (triedInfo 1028 0) := by
  have clean : crowded.check_ = .ok () := by decide +kernel
  have storable : crowded.Storable :=
    storable_of_toList (by decide) (by decide) (by decide) (by decide)
  have known : crowded.mapInfo[(64 : Int)]? = some (triedInfo 1028 64) := by decide
  -- the other entries fill the bucket of the last one
  have alike : ∀ entry ∈ crowded.triedEntries,
      entry.2.onDisk.getTriedBucket crowded.nKey = (triedInfo 1028 64).getTriedBucket crowded.nKey := by
    decide +kernel
  have others : ∀ entry ∈ crowded.triedEntries.take ADDRMAN_TRIED_BUCKET_SIZE, entry.2.service.addr ≠ 1028 := by
    decide
  obtain ⟨next, built, gone⟩ := CAddrMan.reload_full (s := crowded) (by decide +kernel) (by decide +kernel) alike
  refine ⟨clean, storable, next, ?_, ⟨64, _, known, rfl⟩, ?_⟩
  · exact (CAddrMan.serialize_reads (CAddrMan.check_eq_ok.mp clean) storable built).whole
  · rintro ⟨nId, info, found, same⟩
    obtain ⟨entry, listed, service⟩ := gone nId info found
    have address : entry.2.service.addr = info.service.addr := congrArg CService.addr service.symm
    refine others entry listed (address.trans ?_)
    exact (congrArg (fun info : CAddrInfo => info.service.addr) same).symm

end Sample

end BitCrystal
