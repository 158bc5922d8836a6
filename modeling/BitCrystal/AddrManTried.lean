import BitCrystal.AddrManSteps
import BitCrystal.Data.Draws

namespace BitCrystal

open Data

/-! # Entries of the tried buckets -/

namespace CAddrMan

variable {s next : CAddrMan} {nId other : Int} {info old : CAddrInfo}

section

variable {vvTried : Fin ADDRMAN_TRIED_BUCKET_COUNT → List Int} {k : Fin ADDRMAN_TRIED_BUCKET_COUNT}

theorem occurrences_update (vvTried : Fin ADDRMAN_TRIED_BUCKET_COUNT → List Int) (k : Fin ADDRMAN_TRIED_BUCKET_COUNT)
    (vTried : List Int) (other : Int) :
    occurrences (Function.update vvTried k vTried) other + (vvTried k).count other =
      occurrences vvTried other + vTried.count other :=
  sum_update vvTried (fun vTried => vTried.count other) k vTried

theorem count_le_occurrences (vvTried : Fin ADDRMAN_TRIED_BUCKET_COUNT → List Int) (k : Fin ADDRMAN_TRIED_BUCKET_COUNT)
    (nId : Int) : (vvTried k).count nId ≤ occurrences vvTried nId :=
  Finset.single_le_sum (f := fun b => (vvTried b).count nId) (fun _ _ => Nat.zero_le _) (Finset.mem_univ k)

theorem occurrences_pos (member : nId ∈ vvTried k) : 1 ≤ occurrences vvTried nId :=
  (List.one_le_count_iff.mpr member).trans (count_le_occurrences vvTried k nId)

theorem not_mem_of_occurrences (nowhere : occurrences vvTried nId = 0) (k : Fin ADDRMAN_TRIED_BUCKET_COUNT) :
    nId ∉ vvTried k := by
  intro member
  have positive := occurrences_pos member
  omega

theorem lengths_update (vvTried : Fin ADDRMAN_TRIED_BUCKET_COUNT → List Int) (k : Fin ADDRMAN_TRIED_BUCKET_COUNT)
    (vTried : List Int) :
    (∑ b, ((Function.update vvTried k vTried b).length : Int)) + (vvTried k).length =
      (∑ b, ((vvTried b).length : Int)) + vTried.length := by
  have sums := sum_update vvTried List.length k vTried
  exact_mod_cast sums

end

theorem Consistent.of_tried {k : Fin ADDRMAN_TRIED_BUCKET_COUNT} (consistent : s.Consistent)
    (member : nId ∈ s.vvTried k) :
    ∃ info, s.mapInfo[nId]? = some info ∧ info.fInTried = true ∧ references s.vvNew nId = 0 ∧
      occurrences s.vvTried nId = 1 := by
  have positive := occurrences_pos member
  have placed := consistent.placed nId
  unfold PlacedAt at placed
  cases found : s.mapInfo[nId]? with
  | none =>
      rw [status, found] at placed
      have nowhere : occurrences s.vvTried nId = 0 := placed.2.2
      omega
  | some info =>
      rw [status_of_found found] at placed
      obtain ⟨counted, place⟩ := placed
      cases kind : info.fInTried with
      | false =>
          rw [kind] at place
          have nowhere : occurrences s.vvTried nId = 0 := place.2.2
          omega
      | true =>
          rw [kind] at place
          obtain ⟨none, once⟩ := place
          change info.nRefCount = references s.vvNew nId + 0 at counted
          exact ⟨info, rfl, kind, by omega, once⟩

/-! ## SelectTried -/

/-- `nPos` in the turn `i` of SelectTried -/
def pickTried (rnd : Nat → Nat) (length i : Nat) : Nat := getRandInt (rnd i) (length - i) + i

/-- `mapInfo[nId].nLastSuccess` -/
def lastSuccess (s : CAddrMan) (nId : Int) : Int := (s.mapInfo[nId]?.map CAddrInfo.nLastSuccess).getD 0

theorem pickTried_within (rnd : Nat → Nat) {length i : Nat} (inside : i < length) :
    i ≤ pickTried rnd length i ∧ pickTried rnd length i < length := by
  have less := Nat.mod_lt (rnd i) (show 0 < length - i by omega)
  unfold pickTried getRandInt
  omega

theorem picksFrom_pickTried (rnd : Nat → Nat) {length turns i : Nat} (fits : i + turns ≤ length) :
    PicksFrom (pickTried rnd length) turns i length :=
  fun _ _ before => pickTried_within rnd (by omega)

theorem selectLoop_eq (rnd : Nat → Nat) (turns i : Nat) {vTried : List Int} {nOldest : Option (Int × Nat)}
    (known : ∀ nId ∈ vTried, (s.mapInfo[nId]?).isSome)
    (chosen : ∀ nId nPos, nOldest = some (nId, nPos) → (s.mapInfo[nId]?).isSome) :
    s.selectLoop rnd turns i vTried nOldest =
      some (shuffle (pickTried rnd vTried.length) (min turns (vTried.length - i)) i vTried,
        (draws (pickTried rnd vTried.length) (min turns (vTried.length - i)) i vTried).foldl
          (List.argAux fun one other => s.lastSuccess one.1 < s.lastSuccess other.1) nOldest) := by
  induction turns generalizing i vTried nOldest with
  | zero => simp [selectLoop, shuffle, draws]
  | succ turns ih =>
      unfold selectLoop
      split
      case isFalse outside =>
        rw [show min (turns + 1) (vTried.length - i) = 0 by omega]
        rfl
      case isTrue inside =>
        have within := (pickTried_within rnd inside).2
        have place : getRandInt (rnd i) (vTried.length - i) + i = pickTried rnd vTried.length i := rfl
        have turn : min (turns + 1) (vTried.length - i) = min turns (vTried.length - (i + 1)) + 1 := by omega
        rw [place, turn, shuffle, draws, exchange_eq within inside]
        simp only [List.getElem?_eq_getElem within, List.getElem?_eq_getElem inside, Option.bind_eq_bind,
          Option.bind_some, List.foldl_cons]
        generalize exchanged : (vTried.set (pickTried rnd vTried.length i) vTried[i]).set i
          vTried[pickTried rnd vTried.length i] = vTried'
        have perm : vTried'.Perm vTried := exchanged ▸ List.set_set_perm within inside
        have known' : ∀ nId ∈ vTried', (s.mapInfo[nId]?).isSome := fun nId member => known nId (perm.mem_iff.mp member)
        obtain ⟨info, entry⟩ := Option.isSome_iff_exists.mp (known _ (List.getElem_mem within))
        have next : ∀ candidate : Int × Nat, (s.mapInfo[candidate.1]?).isSome →
            s.selectLoop rnd turns (i + 1) vTried' (some candidate) =
              some (shuffle (pickTried rnd vTried.length) (min turns (vTried.length - (i + 1))) (i + 1) vTried',
                (draws (pickTried rnd vTried.length) (min turns (vTried.length - (i + 1))) (i + 1) vTried').foldl
                  (List.argAux fun one other => s.lastSuccess one.1 < s.lastSuccess other.1) (some candidate)) := by
          intro candidate found
          have rest := @ih (i + 1) vTried' (some candidate) known' (by rintro nId nPos ⟨⟩; exact found)
          rwa [perm.length_eq] at rest
        cases nOldest with
        | none => exact next (_, _) (Option.isSome_iff_exists.mpr ⟨info, entry⟩)
        | some first =>
            obtain ⟨first, firstPos⟩ := first
            obtain ⟨infoOld, entryOld⟩ := Option.isSome_iff_exists.mp (chosen first firstPos rfl)
            have time : s.lastSuccess vTried[pickTried rnd vTried.length i] = info.nLastSuccess := by
              simp [lastSuccess, entry]
            have timeOld : s.lastSuccess first = infoOld.nLastSuccess := by simp [lastSuccess, entryOld]
            simp only [entry, entryOld, Option.bind_some, List.argAux, time, timeOld]
            split
            · exact next (_, _) (Option.isSome_iff_exists.mpr ⟨info, entry⟩)
            · exact next (_, _) (Option.isSome_iff_exists.mpr ⟨infoOld, entryOld⟩)

/-- The entries that SelectTried inspects, with the places where it finds them. -/
def inspected (rnd : Nat → Nat) (vTried : List Int) : List (Int × Nat) :=
  draws (pickTried rnd vTried.length) (min ADDRMAN_TRIED_ENTRIES_INSPECT_ON_EVICT vTried.length) 0 vTried

def shuffleTried (rnd : Nat → Nat) (vTried : List Int) : List Int :=
  shuffle (pickTried rnd vTried.length) (min ADDRMAN_TRIED_ENTRIES_INSPECT_ON_EVICT vTried.length) 0 vTried

theorem picksFrom_inspect (rnd : Nat → Nat) (vTried : List Int) :
    PicksFrom (pickTried rnd vTried.length) (min ADDRMAN_TRIED_ENTRIES_INSPECT_ON_EVICT vTried.length) 0
      vTried.length :=
  picksFrom_pickTried rnd (by omega)

theorem shuffleTried_perm (rnd : Nat → Nat) (vTried : List Int) : (shuffleTried rnd vTried).Perm vTried :=
  shuffle_perm _ _ _ _

theorem selectTried_eq (rnd : Nat → Nat) {k : Fin ADDRMAN_TRIED_BUCKET_COUNT}
    (known : ∀ nId ∈ s.vvTried k, (s.mapInfo[nId]?).isSome) :
    s.selectTried rnd k =
      some ({ s with vvTried := Function.update s.vvTried k (shuffleTried rnd (s.vvTried k)) },
        ((inspected rnd (s.vvTried k)).argmin (s.lastSuccess ∘ Prod.fst)).map Prod.snd) := by
  have loop := @selectLoop_eq s rnd ADDRMAN_TRIED_ENTRIES_INSPECT_ON_EVICT 0 (s.vvTried k) none known (fun _ _ => nofun)
  rw [selectTried, loop]
  rfl

theorem exists_oldest (rnd : Nat → Nat) {vTried : List Int} (nonempty : 0 < vTried.length) :
    ∃ oldest, (inspected rnd vTried).argmin (s.lastSuccess ∘ Prod.fst) = some oldest ∧ oldest.2 < vTried.length := by
  have picks := picksFrom_inspect rnd vTried
  cases found : (inspected rnd vTried).argmin (s.lastSuccess ∘ Prod.fst) with
  | none =>
      have length := length_draws picks
      rw [show draws _ _ 0 vTried = [] from List.argmin_eq_none.mp found, List.length_nil] at length
      have some' : 0 < ADDRMAN_TRIED_ENTRIES_INSPECT_ON_EVICT := by decide
      omega
  | some oldest =>
      obtain ⟨t, drawn, -⟩ := exists_first_of_argmin found
      have turn : t < min ADDRMAN_TRIED_ENTRIES_INSPECT_ON_EVICT vTried.length := by
        rw [← length_draws picks]
        exact (List.getElem?_eq_some_iff.mp drawn).1
      obtain ⟨nId, atTurn⟩ := draws_getElem? picks turn
      obtain rfl : (nId, _) = oldest := Option.some.inj (atTurn.symm.trans drawn)
      exact ⟨_, rfl, (picks (0 + t) (Nat.zero_le _) (by omega)).2⟩

theorem selectTried_spec (rnd : Nat → Nat) {k : Fin ADDRMAN_TRIED_BUCKET_COUNT}
    (known : ∀ nId ∈ s.vvTried k, (s.mapInfo[nId]?).isSome) (nonempty : 0 < (s.vvTried k).length) :
    ∃ nId nPos, s.selectTried rnd k =
        some ({ s with vvTried := Function.update s.vvTried k (shuffleTried rnd (s.vvTried k)) }, some nPos) ∧
      (inspected rnd (s.vvTried k)).argmin (s.lastSuccess ∘ Prod.fst) = some (nId, nPos) ∧
      nPos < (s.vvTried k).length := by
  obtain ⟨⟨nId, nPos⟩, oldest, within⟩ := exists_oldest (s := s) rnd nonempty
  exact ⟨nId, nPos, by rw [selectTried_eq rnd known, oldest]; rfl, oldest, within⟩

/-! ## MakeTried -/

theorem references_leave (vvNew : Fin ADDRMAN_NEW_BUCKET_COUNT → Finset Int) :
    references (fun b => (vvNew b).erase nId) other = if other = nId then 0 else references vvNew other := by
  unfold references
  split
  · rename_i same
    simp [same]
  · rename_i different
    simp [different]

theorem references_eq_card (vvNew : Fin ADDRMAN_NEW_BUCKET_COUNT → Finset Int) :
    references vvNew nId = (Finset.univ.filter fun b => nId ∈ vvNew b).card :=
  (Finset.card_filter (fun b => nId ∈ vvNew b) Finset.univ).symm

theorem Consistent.pushTried (consistent : s.Consistent) (first last : CAddrInfo)
    {k : Fin ADDRMAN_TRIED_BUCKET_COUNT} (found : s.mapInfo[nId]? = some info) (outside : occurrences s.vvTried nId = 0)
    (firstPos : first.nRandomPos = info.nRandomPos) (firstAddr : first.service.addr = info.service.addr)
    (lastPos : last.nRandomPos = info.nRandomPos) (lastAddr : last.service.addr = info.service.addr)
    (emptied : last.nRefCount = 0) (kind : last.fInTried = true)
    (room : (s.vvTried k).length < ADDRMAN_TRIED_BUCKET_SIZE) :
    Consistent { (s.setInfo nId first).setInfo nId last with
      vvNew := fun b => (s.vvNew b).erase nId
      nNew := s.nNew - 1
      vvTried := Function.update s.vvTried k (s.vvTried k ++ [nId])
      nTried := s.nTried + 1 } := by
  have found' : (s.setInfo nId first).mapInfo[nId]? = some first := by rw [setInfo_mapInfo, if_pos rfl]
  refine ⟨consistent.toIndexed.rearrange rfl ?_ rfl ?_ rfl ?_ ?_ ?_ ?_, ?_⟩
  · exact (setInfo_position found' (lastPos.trans firstPos.symm)).trans (setInfo_position found firstPos)
  · exact (setInfo_address found' (lastAddr.trans firstAddr.symm)).trans (setInfo_address found firstAddr)
  · have sums := lengths_update s.vvTried k (s.vvTried k ++ [nId])
    have before := consistent.nTried
    simp only [List.length_append, List.length_singleton] at sums
    change s.nTried + 1 = ∑ b, ((Function.update s.vvTried k (s.vvTried k ++ [nId]) b).length : Int)
    push_cast at sums
    omega
  · change s.nTried + 1 + (s.nNew - 1) = s.nTried + s.nNew
    omega
  · exact fun b => (Finset.card_le_card (Finset.erase_subset nId (s.vvNew b))).trans (consistent.newSize b)
  · refine (Function.forall_update_iff s.vvTried fun _ vTried => vTried.length ≤ ADDRMAN_TRIED_BUCKET_SIZE).mpr
      ⟨?_, fun b _ => consistent.triedSize b⟩
    rw [List.length_append, List.length_singleton]
    exact room
  · intro other
    have before := consistent.placed other
    have places := occurrences_update s.vvTried k (s.vvTried k ++ [nId]) other
    change Placed 0 (((s.setInfo nId first).setInfo nId last).status other)
      (references (fun b => (s.vvNew b).erase nId) other) (occurrences (Function.update s.vvTried k _) other)
    rw [setInfo_status, setInfo_status, Function.update_idem, Function.update_apply, references_leave]
    rw [List.count_append] at places
    by_cases same : other = nId
    · rw [same, if_pos rfl, if_pos rfl, emptied, kind]
      rw [same, List.count_singleton_self] at places
      exact ⟨rfl, rfl, by omega⟩
    · rw [if_neg same, if_neg same]
      rw [List.count_singleton, if_neg (by simpa using Ne.symm same)] at places
      have stays : occurrences (Function.update s.vvTried k (s.vvTried k ++ [nId])) other =
          occurrences s.vvTried other := by omega
      rw [stays]
      exact before

theorem Consistent.evictTried (consistent : s.Consistent) (first last lastOld : CAddrInfo) {infoOld : CAddrInfo}
    {k : Fin ADDRMAN_TRIED_BUCKET_COUNT} {target : Fin ADDRMAN_NEW_BUCKET_COUNT} {shuffled : List Int} {nPos : Nat}
    {evicted : Int} (found : s.mapInfo[nId]? = some info) (outside : occurrences s.vvTried nId = 0)
    (foundOld : s.mapInfo[evicted]? = some infoOld) (notNew : references s.vvNew evicted = 0)
    (once : occurrences s.vvTried evicted = 1) (shuffle : shuffled.Perm (s.vvTried k))
    (here : shuffled[nPos]? = some evicted)
    (firstPos : first.nRandomPos = info.nRandomPos) (firstAddr : first.service.addr = info.service.addr)
    (lastPos : last.nRandomPos = info.nRandomPos) (lastAddr : last.service.addr = info.service.addr)
    (oldPos : lastOld.nRandomPos = infoOld.nRandomPos) (oldAddr : lastOld.service.addr = infoOld.service.addr)
    (emptied : last.nRefCount = 0) (kind : last.fInTried = true)
    (one : lastOld.nRefCount = 1) (kindOld : lastOld.fInTried = false)
    (room : ((s.vvNew target).erase nId).card < ADDRMAN_NEW_BUCKET_SIZE) :
    Consistent { ((s.setInfo nId first).setInfo evicted lastOld).setInfo nId last with
      vvNew := Function.update (fun b => (s.vvNew b).erase nId) target (insert evicted ((s.vvNew target).erase nId))
      nNew := s.nNew - 1 + 1
      vvTried := Function.update s.vvTried k (shuffled.set nPos nId) } := by
  obtain ⟨within, at_nPos⟩ := List.getElem?_eq_some_iff.mp here
  have member : evicted ∈ s.vvTried k := shuffle.mem_iff.mp (List.mem_of_getElem? here)
  have apart : evicted ≠ nId := by
    rintro rfl
    exact not_mem_of_occurrences outside k member
  have absent : evicted ∉ (s.vvNew target).erase nId := by
    intro inside
    have positive := references_pos (Finset.mem_of_mem_erase inside)
    omega
  have found1 : (s.setInfo nId first).mapInfo[evicted]? = some infoOld := by
    rw [setInfo_mapInfo, if_neg apart, foundOld]
  have found2 : ((s.setInfo nId first).setInfo evicted lastOld).mapInfo[nId]? = some first := by
    rw [setInfo_mapInfo, if_neg apart.symm, setInfo_mapInfo, if_pos rfl]
  have length : (shuffled.set nPos nId).length = (s.vvTried k).length := by
    rw [List.length_set, shuffle.length_eq]
  refine ⟨consistent.toIndexed.rearrange rfl ?_ rfl ?_ rfl ?_ ?_ ?_ ?_, ?_⟩
  · exact (setInfo_position found2 (lastPos.trans firstPos.symm)).trans
      ((setInfo_position found1 oldPos).trans (setInfo_position found firstPos))
  · exact (setInfo_address found2 (lastAddr.trans firstAddr.symm)).trans
      ((setInfo_address found1 oldAddr).trans (setInfo_address found firstAddr))
  · have sums := lengths_update s.vvTried k (shuffled.set nPos nId)
    have before := consistent.nTried
    rw [length] at sums
    change s.nTried = ∑ b, ((Function.update s.vvTried k (shuffled.set nPos nId) b).length : Int)
    omega
  · change s.nTried + (s.nNew - 1 + 1) = s.nTried + s.nNew
    omega
  · refine (Function.forall_update_iff (fun b => (s.vvNew b).erase nId)
      fun _ vNew => vNew.card ≤ ADDRMAN_NEW_BUCKET_SIZE).mpr ⟨?_, fun b _ => ?_⟩
    · rw [Finset.card_insert_of_notMem absent]
      exact room
    · exact (Finset.card_le_card (Finset.erase_subset nId (s.vvNew b))).trans (consistent.newSize b)
  · refine (Function.forall_update_iff s.vvTried fun _ vTried => vTried.length ≤ ADDRMAN_TRIED_BUCKET_SIZE).mpr
      ⟨?_, fun b _ => consistent.triedSize b⟩
    rw [length]
    exact consistent.triedSize k
  · intro other
    have before := consistent.placed other
    have refs : references (Function.update (fun b => (s.vvNew b).erase nId) target _) other = _ + _ :=
      references_insert absent other
    have places := occurrences_update s.vvTried k (shuffled.set nPos nId) other
    have atPlace : shuffled.count other = (s.vvTried k).count other := shuffle.count_eq other
    rw [List.count_set within, at_nPos] at places
    change Placed 0 ((((s.setInfo nId first).setInfo evicted lastOld).setInfo nId last).status other)
      (references (Function.update (fun b => (s.vvNew b).erase nId) target
        (insert evicted ((s.vvNew target).erase nId))) other)
      (occurrences (Function.update s.vvTried k (shuffled.set nPos nId)) other)
    rw [setInfo_status, setInfo_status, setInfo_status, Function.update_apply, Function.update_apply,
      Function.update_apply, refs, references_leave]
    by_cases isNew : other = nId
    · have notOld : ¬other = evicted := fun isOld => apart (isOld.symm.trans isNew)
      rw [if_pos isNew, if_pos isNew, if_neg notOld, emptied, kind]
      rw [isNew] at places ⊢
      simp only [beq_iff_eq, apart, if_false, if_true, Nat.sub_zero] at places
      exact ⟨rfl, rfl, by rw [isNew] at atPlace; omega⟩
    · rw [if_neg isNew, if_neg isNew, if_neg isNew]
      by_cases isOld : other = evicted
      · rw [if_pos isOld, if_pos isOld, one, kindOld]
        rw [isOld] at places atPlace ⊢
        simp only [beq_iff_eq, Ne.symm apart, if_false, if_true] at places
        have positive : 1 ≤ (s.vvTried k).count evicted := List.one_le_count_iff.mpr member
        rw [notNew]
        exact ⟨rfl, le_rfl, by decide, by omega⟩
      · rw [if_neg isOld, if_neg isOld, Nat.add_zero]
        simp only [beq_iff_eq, Ne.symm isNew, Ne.symm isOld, if_false, Nat.sub_zero] at places
        have stays : occurrences (Function.update s.vvTried k (shuffled.set nPos nId)) other =
            occurrences s.vvTried other := by omega
        rw [stays]
        exact before

theorem Consistent.leaves (consistent : s.Consistent) {nOrigin : Fin ADDRMAN_NEW_BUCKET_COUNT}
    (found : s.mapInfo[nId]? = some info) (member : nId ∈ s.vvNew nOrigin) :
    s.leaveNew nId info =
        ({ s.setInfo nId { info with nRefCount := 0 } with
          vvNew := fun b => (s.vvNew b).erase nId
          nNew := s.nNew - 1 }, { info with nRefCount := 0 }) ∧
      occurrences s.vvTried nId = 0 := by
  obtain ⟨info', found', -, counted, -, outside⟩ := (consistent.placed nId).of_mem le_rfl member
  rw [found] at found'
  cases found'
  have emptied : info.nRefCount - ((Finset.univ.filter fun b => nId ∈ s.vvNew b).card : Int) = 0 := by
    change info.nRefCount = references s.vvNew nId + 0 at counted
    rw [← references_eq_card]
    omega
  exact ⟨by simp only [leaveNew, emptied], outside⟩

section

variable [Hashing]

theorem evict_of_found {k : Fin ADDRMAN_TRIED_BUCKET_COUNT} (nOrigin : Fin ADDRMAN_NEW_BUCKET_COUNT) {nPos : Nat}
    {evicted : Int} {infoOld : CAddrInfo} (here : (s.vvTried k)[nPos]? = some evicted)
    (foundOld : s.mapInfo[evicted]? = some infoOld) (found : s.mapInfo[nId]? = some info) :
    ∃ target, ((s.vvNew target).card < ADDRMAN_NEW_BUCKET_SIZE ∨ target = nOrigin) ∧
      s.evict nId nOrigin k nPos =
        some { (s.setInfo evicted { infoOld with fInTried := false, nRefCount := 1 }).setInfo nId
            { info with fInTried := true } with
          vvNew := Function.update s.vvNew target (insert evicted (s.vvNew target))
          nNew := s.nNew + 1
          vvTried := Function.update s.vvTried k ((s.vvTried k).set nPos nId) } := by
  simp only [evict, here, foundOld, found, Option.bind_eq_bind, Option.bind_some, Option.pure_def]
  refine ⟨_, ?_, rfl⟩
  split
  · rename_i less
    exact .inl less
  · exact .inr rfl

theorem makeTried_room (rnd : Nat → Nat) {nOrigin : Fin ADDRMAN_NEW_BUCKET_COUNT} (consistent : s.Consistent)
    (found : s.mapInfo[nId]? = some info) (member : nId ∈ s.vvNew nOrigin)
    (room : (s.vvTried (info.getTriedBucket s.nKey)).length < ADDRMAN_TRIED_BUCKET_SIZE) :
    s.makeTried rnd nId nOrigin =
      some { (s.setInfo nId { info with nRefCount := 0 }).setInfo nId { info with nRefCount := 0, fInTried := true } with
        vvNew := fun b => (s.vvNew b).erase nId
        nNew := s.nNew - 1
        vvTried := Function.update s.vvTried (info.getTriedBucket s.nKey)
          (s.vvTried (info.getTriedBucket s.nKey) ++ [nId])
        nTried := s.nTried + 1 } := by
  simp only [makeTried, found, (consistent.leaves found member).1, Option.bind_eq_bind, Option.bind_some,
    Option.pure_def, not_not.mpr member, if_false, ne_eq, not_true]
  exact if_pos room

/-- The entry takes the place of the one that SelectTried has chosen, and that one goes to
its own new bucket or, when that is full, to the one that the entry has left. -/
structure Demotes (s next : CAddrMan) (rnd : Nat → Nat) (nId : Int) (info : CAddrInfo)
    (evicted : Int) (infoOld : CAddrInfo) : Prop where
  chosen : ∃ oldest, (inspected rnd (s.vvTried (info.getTriedBucket s.nKey))).argmin (s.lastSuccess ∘ Prod.fst) =
      some oldest ∧ (shuffleTried rnd (s.vvTried (info.getTriedBucket s.nKey)))[oldest.2]? = some evicted ∧
    next.vvTried = Function.update s.vvTried (info.getTriedBucket s.nKey)
      ((shuffleTried rnd (s.vvTried (info.getTriedBucket s.nKey))).set oldest.2 nId)
  foundOld : s.mapInfo[evicted]? = some infoOld
  apart : evicted ≠ nId
  entries : ∃ target, ((s.vvNew target).erase nId).card < ADDRMAN_NEW_BUCKET_SIZE ∧
    next = { ((s.setInfo nId { info with nRefCount := 0 }).setInfo evicted
        { infoOld with fInTried := false, nRefCount := 1 }).setInfo nId { info with nRefCount := 0, fInTried := true } with
      vvNew := Function.update (fun b => (s.vvNew b).erase nId) target (insert evicted ((s.vvNew target).erase nId))
      nNew := s.nNew - 1 + 1
      vvTried := next.vvTried }

theorem makeTried_full (rnd : Nat → Nat) {nOrigin : Fin ADDRMAN_NEW_BUCKET_COUNT} (consistent : s.Consistent)
    (found : s.mapInfo[nId]? = some info) (member : nId ∈ s.vvNew nOrigin)
    (full : ¬ (s.vvTried (info.getTriedBucket s.nKey)).length < ADDRMAN_TRIED_BUCKET_SIZE) :
    ∃ next evicted infoOld, s.makeTried rnd nId nOrigin = some next ∧
      s.Demotes next rnd nId info evicted infoOld := by
  obtain ⟨leave, outside⟩ := consistent.leaves found member
  simp only [makeTried, found, leave, Option.bind_eq_bind, Option.bind_some, Option.pure_def, not_not.mpr member,
    if_false, ne_eq, not_true]
  generalize bucket : info.getTriedBucket s.nKey = k at full ⊢
  generalize firstEq : ({ info with nRefCount := 0 } : CAddrInfo) = first
  have sameBucket : first.getTriedBucket (s.setInfo nId first).nKey = k := by rw [← firstEq]; exact bucket
  have found1 : (s.setInfo nId first).mapInfo[nId]? = some first := by rw [setInfo_mapInfo, if_pos rfl]
  have times : (s.setInfo nId first).lastSuccess = s.lastSuccess := by
    funext other
    unfold lastSuccess
    rw [setInfo_mapInfo]
    split
    case isTrue same => rw [same, found, ← firstEq]; rfl
    case isFalse => rfl
  rw [sameBucket, if_neg (show ¬ ((s.setInfo nId first).vvTried k).length < ADDRMAN_TRIED_BUCKET_SIZE from full)]
  have nonempty : 0 < (s.vvTried k).length := by
    have positive : 0 < ADDRMAN_TRIED_BUCKET_SIZE := by decide
    omega
  have known : ∀ other ∈ s.vvTried k, ((s.setInfo nId first).mapInfo[other]?).isSome := by
    intro other inside
    obtain ⟨info, entry, -⟩ := consistent.of_tried inside
    rw [setInfo_mapInfo]
    split
    case isTrue => rfl
    case isFalse => rw [entry]; rfl
  obtain ⟨nOldest, nPos, select, oldest, within⟩ := selectTried_spec rnd
    (s := { s.setInfo nId first with vvNew := fun b => (s.vvNew b).erase nId, nNew := s.nNew - 1 }) known nonempty
  rw [select]
  have shuffled := shuffleTried_perm rnd (s.vvTried k)
  have inside : nPos < (shuffleTried rnd (s.vvTried k)).length := lt_of_lt_of_eq within shuffled.length_eq.symm
  obtain ⟨evicted, here⟩ : ∃ evicted, (shuffleTried rnd (s.vvTried k))[nPos]? = some evicted :=
    ⟨_, List.getElem?_eq_getElem inside⟩
  have inBucket : evicted ∈ s.vvTried k := shuffled.mem_iff.mp (List.mem_of_getElem? here)
  obtain ⟨infoOld, foundOld, -⟩ := consistent.of_tried inBucket
  have apart : evicted ≠ nId := by
    rintro rfl
    exact not_mem_of_occurrences outside k inBucket
  have found2 : (s.setInfo nId first).mapInfo[evicted]? = some infoOld := by
    rw [setInfo_mapInfo, if_neg apart, foundOld]
  have atPlace : (Function.update s.vvTried k (shuffleTried rnd (s.vvTried k)) k)[nPos]? = some evicted := by
    rw [Function.update_self, here]
  obtain ⟨target, place, evicts⟩ := evict_of_found nOrigin
    (s := { s.setInfo nId first with
      vvNew := fun b => (s.vvNew b).erase nId
      nNew := s.nNew - 1
      vvTried := Function.update s.vvTried k (shuffleTried rnd (s.vvTried k)) })
    (k := k) atPlace found2 found1
  have overwritten : Function.update (Function.update s.vvTried k (shuffleTried rnd (s.vvTried k))) k
      ((Function.update s.vvTried k (shuffleTried rnd (s.vvTried k)) k).set nPos nId) =
        Function.update s.vvTried k ((shuffleTried rnd (s.vvTried k)).set nPos nId) := by
    rw [Function.update_self, Function.update_idem]
  have room : ((s.vvNew target).erase nId).card < ADDRMAN_NEW_BUCKET_SIZE := by
    rcases place with less | origin
    · exact less
    · rw [origin]
      exact lt_of_lt_of_le (Finset.card_erase_lt_of_mem member) (consistent.newSize nOrigin)
  refine ⟨_, evicted, infoOld, evicts, ⟨(nOldest, nPos), ?_, ?_, ?_⟩, foundOld, apart, target, room, ?_⟩
  · rw [bucket, ← times]
    exact oldest
  · rw [bucket]
    exact here
  · rw [bucket]
    exact overwritten
  · rw [← firstEq]
    rfl

theorem makeTried_spec (rnd : Nat → Nat) {nOrigin : Fin ADDRMAN_NEW_BUCKET_COUNT} (consistent : s.Consistent)
    (found : s.mapInfo[nId]? = some info) (kind : info.fInTried = false) (member : nId ∈ s.vvNew nOrigin) :
    ∃ next, s.makeTried rnd nId nOrigin = some next ∧ next.Consistent ∧ next.nIdCount = s.nIdCount ∧
      (info.nLastSuccess ≠ 0 → s.Inherits next) := by
  have outside := (consistent.leaves found member).2
  have found1 : (s.setInfo nId { info with nRefCount := 0 }).mapInfo[nId]? = some { info with nRefCount := 0 } := by
    rw [setInfo_mapInfo, if_pos rfl]
  have stepFirst : s.Inherits (s.setInfo nId { info with nRefCount := 0 }) :=
    .setInfo found rfl rfl (by simp [kind])
  by_cases room : (s.vvTried (info.getTriedBucket s.nKey)).length < ADDRMAN_TRIED_BUCKET_SIZE
  · refine ⟨_, makeTried_room rnd consistent found member room,
      consistent.pushTried { info with nRefCount := 0 } { info with nRefCount := 0, fInTried := true }
        found outside rfl rfl rfl rfl rfl rfl room, rfl, ?_⟩
    intro succeeded
    have stepLast : (s.setInfo nId { info with nRefCount := 0 }).Inherits
        ((s.setInfo nId { info with nRefCount := 0 }).setInfo nId { info with nRefCount := 0, fInTried := true }) :=
      .setInfo found1 rfl rfl fun _ => .inr succeeded
    exact (stepFirst.trans stepLast).trans (.of_eq rfl rfl)
  · obtain ⟨next, evicted, infoOld, made, demotes⟩ := makeTried_full rnd consistent found member room
    obtain ⟨oldest, -, here, bucket⟩ := demotes.chosen
    obtain ⟨target, place, whole⟩ := demotes.entries
    have shuffled := shuffleTried_perm rnd (s.vvTried (info.getTriedBucket s.nKey))
    have inBucket : evicted ∈ s.vvTried (info.getTriedBucket s.nKey) :=
      shuffled.mem_iff.mp (List.mem_of_getElem? here)
    obtain ⟨infoOld', foundOld', -, notNew, once⟩ := consistent.of_tried inBucket
    have found2 : (s.setInfo nId { info with nRefCount := 0 }).mapInfo[evicted]? = some infoOld := by
      rw [setInfo_mapInfo, if_neg demotes.apart, demotes.foundOld]
    refine ⟨next, made, ?_, by rw [whole]; rfl, ?_⟩
    · have final := consistent.evictTried { info with nRefCount := 0 } { info with nRefCount := 0, fInTried := true }
        { infoOld with fInTried := false, nRefCount := 1 } found outside demotes.foundOld notNew once shuffled here
        rfl rfl rfl rfl rfl rfl rfl rfl rfl rfl place
      rw [← bucket, ← whole] at final
      exact final
    · intro succeeded
      have found3 : ((s.setInfo nId { info with nRefCount := 0 }).setInfo evicted
          { infoOld with fInTried := false, nRefCount := 1 }).mapInfo[nId]? = some { info with nRefCount := 0 } := by
        rw [setInfo_mapInfo, if_neg demotes.apart.symm, found1]
      have stepOld : (s.setInfo nId { info with nRefCount := 0 }).Inherits
          ((s.setInfo nId { info with nRefCount := 0 }).setInfo evicted
            { infoOld with fInTried := false, nRefCount := 1 }) := .setInfo found2 rfl rfl nofun
      have stepLast : Inherits _ (setInfo _ nId { info with nRefCount := 0, fInTried := true }) :=
        .setInfo found3 rfl rfl fun _ => .inr succeeded
      rw [whole]
      exact ((stepFirst.trans stepOld).trans stepLast).trans (.of_eq rfl rfl)

/-! ## Good_, Attempt_ and Connected_ -/

omit [Hashing] in
theorem mem_of_findNew {nRnd : Nat} {b : Fin ADDRMAN_NEW_BUCKET_COUNT} (found : s.findNew nRnd nId = some b) :
    nId ∈ s.vvNew b := by
  have holds := List.find?_some found
  simpa using holds

theorem good_spec (rnd : Nat → Nat) (addr : CService) (nTime : Int) (consistent : s.Consistent) :
    ∃ next, s.good_ rnd addr nTime = some next ∧ next.Consistent ∧ next.nIdCount = s.nIdCount ∧
      (0 < nTime → s.Timely → next.Timely) := by
  unfold good_
  cases found : s.find addr.addr with
  | none => exact ⟨s, rfl, consistent, rfl, fun _ => id⟩
  | some entry =>
      obtain ⟨nId, old⟩ := entry
      obtain ⟨entry, -⟩ := of_find found
      simp only
      split
      · exact ⟨s, rfl, consistent, rfl, fun _ => id⟩
      · generalize updated : ({ old with
          nLastSuccess := nTime, nLastTry := nTime, nTime := UInt32.ofInt nTime, nAttempts := 0 } : CAddrInfo) = info
        have touched : (s.setInfo nId info).Consistent := by
          rw [← updated]
          exact consistent.touch entry ⟨rfl, rfl, rfl, rfl⟩
        have success : info.nLastSuccess = nTime := by rw [← updated]
        have timely : 0 < nTime → s.Timely → (s.setInfo nId info).Timely := by
          intro positive before
          have tried : info.nLastTry = nTime := by rw [← updated]
          exact before.setInfo (by omega) (by omega) (fun _ => by omega)
        have entry' : (s.setInfo nId info).mapInfo[nId]? = some info := by rw [setInfo_mapInfo, if_pos rfl]
        have kind : info.fInTried = old.fInTried := by rw [← updated]
        split
        · exact ⟨_, rfl, touched, rfl, timely⟩
        · rename_i notTried
          cases bucket : (s.setInfo nId info).findNew (getRandInt (rnd 0) ADDRMAN_NEW_BUCKET_COUNT) nId with
          | none => exact ⟨_, rfl, touched, rfl, timely⟩
          | some nUBucket =>
              obtain ⟨next, made, consistent', sameCount, inherits⟩ :=
                makeTried_spec (fun i => rnd (i + 1)) touched entry'
                  (kind.trans (Bool.eq_false_of_not_eq_true notTried)) (mem_of_findNew bucket)
              refine ⟨next, made, consistent', sameCount, fun positive before => ?_⟩
              exact (inherits (by omega)).timely (timely positive before)

theorem add_many_spec (rnd : Nat → Nat → Nat) (nNow : Int) (source : CNetAddr) (nTimePenalty : Int)
    (vAddr : List CAddress) (consistent : s.Consistent) :
    ∃ next, s.add rnd nNow source nTimePenalty vAddr = some next ∧ next.Consistent ∧
      (s.Timely → next.Timely) ∧ next.nIdCount ≤ s.nIdCount + vAddr.length := by
  induction vAddr generalizing s rnd with
  | nil => exact ⟨s, rfl, consistent, id, by simp⟩
  | cons addr rest ih =>
      obtain ⟨mid, fNew, first, consistent', timely, count⟩ :=
        add_spec (rnd 0) nNow addr source nTimePenalty consistent
      obtain ⟨next, others, final, timely', count'⟩ := ih (fun i => rnd (i + 1)) consistent'
      refine ⟨next, ?_, final, timely' ∘ timely, ?_⟩
      · simp only [add, first, Option.bind_eq_bind, Option.bind_some]
        exact others
      · rw [List.length_cons]
        push_cast
        omega

end

theorem attempt_spec (addr : CService) (nTime : Int) (consistent : s.Consistent) :
    (s.attempt_ addr nTime).Consistent ∧ (s.attempt_ addr nTime).nIdCount = s.nIdCount ∧
      (0 ≤ nTime → s.Timely → (s.attempt_ addr nTime).Timely) := by
  unfold attempt_
  cases found : s.find addr.addr with
  | none => exact ⟨consistent, rfl, fun _ => id⟩
  | some entry =>
      obtain ⟨nId, old⟩ := entry
      obtain ⟨entry, -⟩ := of_find found
      simp only
      split
      · exact ⟨consistent, rfl, fun _ => id⟩
      · refine ⟨consistent.touch entry ⟨rfl, rfl, rfl, rfl⟩, rfl, fun nonneg timely => ?_⟩
        obtain ⟨-, success, nonzero⟩ := timely nId old entry
        exact timely.setInfo nonneg success nonzero

theorem connected_spec (addr : CService) (nTime : Int) (consistent : s.Consistent) :
    (s.connected_ addr nTime).Consistent ∧ s.Inherits (s.connected_ addr nTime) := by
  unfold connected_
  cases found : s.find addr.addr with
  | none => exact ⟨consistent, .of_eq rfl rfl⟩
  | some entry =>
      obtain ⟨nId, old⟩ := entry
      obtain ⟨entry, -⟩ := of_find found
      simp only
      split
      · exact ⟨consistent, .of_eq rfl rfl⟩
      · split
        · exact ⟨consistent.touch entry ⟨rfl, rfl, rfl, rfl⟩, .setInfo entry rfl rfl .inl⟩
        · exact ⟨consistent, .of_eq rfl rfl⟩

/-! ## GetAddr_ -/

theorem Consistent.moved (consistent : s.Consistent) (moved : s.Moved next) (indexed : next.Indexed) :
    next.Consistent := by
  refine ⟨indexed, ?_⟩
  intro nId
  have before := consistent.placed nId
  unfold PlacedAt at before ⊢
  rw [moved.status, moved.vvNew, moved.vvTried]
  exact before

theorem getAddrLoop_spec {rnd : Nat → Nat} {nNodes n : Nat} (consistent : s.Consistent)
    (within : n + nNodes ≤ s.vRandom.length) :
    ∃ next vAddr, getAddrLoop rnd nNodes n s = some (next, vAddr) ∧ next.Consistent ∧ s.Inherits next := by
  induction nNodes generalizing n s with
  | zero => exact ⟨s, [], rfl, consistent, .of_eq rfl rfl⟩
  | succ nNodes ih =>
      have second : getRandInt (rnd n) (s.vRandom.length - n) + n < s.vRandom.length := by
        have less := Nat.mod_lt (rnd n) (show 0 < s.vRandom.length - n by omega)
        unfold getRandInt
        omega
      obtain ⟨mid, swap, moved, indexed, -⟩ := consistent.toIndexed.swapRandom (show n < s.vRandom.length by omega) second
      have consistent' := consistent.moved moved indexed
      obtain ⟨nId, info, at_n, entry, -⟩ := indexed.entry (show n < mid.vRandom.length by
        have length := moved.length
        omega)
      obtain ⟨next, vAddr, loop, final, inherits⟩ := ih (n := n + 1) consistent' (by
        have length := moved.length
        omega)
      refine ⟨next, info.toCAddress :: vAddr, ?_, final, moved.inherits.trans inherits⟩
      simp only [getAddrLoop, swap, at_n, entry, loop, Option.bind_eq_bind, Option.bind_some, Option.pure_def]

theorem getAddr_spec (rnd : Nat → Nat) (consistent : s.Consistent) :
    ∃ next vAddr, s.getAddr_ rnd = some (next, vAddr) ∧ next.Consistent ∧ s.Inherits next := by
  refine getAddrLoop_spec consistent ?_
  have pct : ADDRMAN_GETADDR_MAX_PCT * s.vRandom.length / 100 ≤ s.vRandom.length := by
    unfold ADDRMAN_GETADDR_MAX_PCT
    omega
  omega

end CAddrMan

end BitCrystal
