import BitCrystal.AddrManRuns

namespace BitCrystal

open Data

/-! # The tried entry that is evicted -/

namespace CAddrMan

variable {s next : CAddrMan} {nId evicted : Int} {info infoOld : CAddrInfo} {rnd : Nat → Nat}
  {k : Fin ADDRMAN_TRIED_BUCKET_COUNT}

/-- One of the entries that SelectTried inspects, with a time as early as any of theirs. -/
def IsOldest (s : CAddrMan) (rnd : Nat → Nat) (vTried : List Int) (nId : Int) : Prop :=
  nId ∈ (inspected rnd vTried).map Prod.fst ∧
    ∀ other ∈ (inspected rnd vTried).map Prod.fst, s.lastSuccess nId ≤ s.lastSuccess other

/-- The first of the oldest entries was found at a place that has a turn of its own, and the entry
that was found in that turn is as old. -/
def OldestInPlace (s : CAddrMan) (rnd : Nat → Nat) (vTried : List Int) : Prop :=
  LeastInPlace s.lastSuccess (inspected rnd vTried)

theorem Consistent.tried_nodup (consistent : s.Consistent) (k : Fin ADDRMAN_TRIED_BUCKET_COUNT) :
    (s.vvTried k).Nodup := by
  rw [List.nodup_iff_count_le_one]
  intro nId
  by_cases member : nId ∈ s.vvTried k
  · obtain ⟨_, _, _, _, once⟩ := consistent.of_tried member
    have part := count_le_occurrences s.vvTried k nId
    omega
  · rw [List.count_eq_zero_of_not_mem member]
    decide

theorem Consistent.tried_known (consistent : s.Consistent) : ∀ nId ∈ s.vvTried k, (s.mapInfo[nId]?).isSome := by
  intro nId member
  obtain ⟨info, entry, _⟩ := consistent.of_tried member
  rw [entry]
  rfl

theorem oldest_iff (consistent : s.Consistent) (rnd : Nat → Nat) (k : Fin ADDRMAN_TRIED_BUCKET_COUNT) :
    (∃ oldest nId, (inspected rnd (s.vvTried k)).argmin (s.lastSuccess ∘ Prod.fst) = some oldest ∧
        (shuffleTried rnd (s.vvTried k))[oldest.2]? = some nId ∧ s.IsOldest rnd (s.vvTried k) nId) ↔
      s.OldestInPlace rnd (s.vvTried k) :=
  holds_least_iff (consistent.tried_nodup k) (picksFrom_inspect rnd (s.vvTried k))

section

variable [Hashing]

theorem Demotes.fInTried_iff (consistent : s.Consistent) {b : Fin ADDRMAN_NEW_BUCKET_COUNT}
    (member : nId ∈ s.vvNew b) (demotes : s.Demotes next rnd nId info evicted infoOld) {other : Int}
    (inBucket : other ∈ s.vvTried (info.getTriedBucket s.nKey)) :
    ∃ after, next.mapInfo[other]? = some after ∧ (after.fInTried = false ↔ other = evicted) := by
  obtain ⟨before, entry, kind, _⟩ := consistent.of_tried inBucket
  obtain ⟨target, _, whole⟩ := demotes.entries
  have outside : other ≠ nId := by
    rintro rfl
    obtain ⟨_, _, _, none, _⟩ := consistent.of_tried inBucket
    have positive := references_pos member
    omega
  have lookup : next.mapInfo[other]? = if other = evicted then some { infoOld with fInTried := false, nRefCount := 1 }
      else s.mapInfo[other]? := by
    rw [whole]
    change (((s.setInfo nId _).setInfo evicted _).setInfo nId _).mapInfo[other]? = _
    rw [setInfo_mapInfo, if_neg outside, setInfo_mapInfo, setInfo_mapInfo, if_neg outside]
  by_cases same : other = evicted
  · exact ⟨_, by rw [lookup, if_pos same], by simp [same]⟩
  · exact ⟨before, by rw [lookup, if_neg same, entry], by simp [same, kind]⟩

/-- SelectTried permutes the bucket. The place that it answers holds one of the oldest entries that
it has inspected, and MakeTried then evicts such an entry, if and only if the first of these
was found in place. -/
theorem selectTried_oldest_iff (consistent : s.Consistent) (rnd : Nat → Nat) (k : Fin ADDRMAN_TRIED_BUCKET_COUNT) :
    (∃ shuffled nPos,
      s.selectTried rnd k = some ({ s with vvTried := Function.update s.vvTried k shuffled }, nPos) ∧
      shuffled.Perm (s.vvTried k) ∧
      ((∃ p nId, nPos = some p ∧ shuffled[p]? = some nId ∧ s.IsOldest rnd (s.vvTried k) nId) ↔
        s.OldestInPlace rnd (s.vvTried k))) ∧
    ∀ nId info nOrigin, s.mapInfo[nId]? = some info → nId ∈ s.vvNew nOrigin → info.getTriedBucket s.nKey = k →
      (s.vvTried k).length = ADDRMAN_TRIED_BUCKET_SIZE →
      ∃ next evicted, s.makeTried rnd nId nOrigin = some next ∧ evicted ∈ s.vvTried k ∧
        (∀ other ∈ s.vvTried k, ∃ after, next.mapInfo[other]? = some after ∧
          (after.fInTried = false ↔ other = evicted)) ∧
        (s.IsOldest rnd (s.vvTried k) evicted ↔ s.OldestInPlace rnd (s.vvTried k)) := by
  constructor
  · refine ⟨_, _, selectTried_eq rnd consistent.tried_known, shuffleTried_perm rnd (s.vvTried k), ?_⟩
    rw [← oldest_iff consistent]
    constructor
    · rintro ⟨p, nId, place, here, isOldest⟩
      obtain ⟨oldest, found, rfl⟩ := Option.map_eq_some_iff.mp place
      exact ⟨oldest, nId, found, here, isOldest⟩
    · rintro ⟨oldest, nId, found, here, isOldest⟩
      exact ⟨oldest.2, nId, by rw [found]; rfl, here, isOldest⟩
  · rintro nId info nOrigin found member rfl full
    obtain ⟨next, evicted, infoOld, made, demotes⟩ := makeTried_full rnd consistent found member (by omega)
    obtain ⟨oldest, chosen, here, _⟩ := demotes.chosen
    refine ⟨next, evicted, made, ?_, fun other => demotes.fInTried_iff consistent member, ?_⟩
    · exact (shuffleTried_perm rnd _).mem_iff.mp (List.mem_of_getElem? here)
    · rw [← oldest_iff consistent]
      constructor
      · intro isOldest
        exact ⟨oldest, evicted, chosen, here, isOldest⟩
      · rintro ⟨oldest', evicted', chosen', here', isOldest⟩
        obtain rfl : oldest = oldest' := Option.some.inj (chosen.symm.trans chosen')
        obtain rfl : evicted = evicted' := Option.some.inj (here.symm.trans here')
        exact isOldest

end

end CAddrMan

namespace Sample

def peerAddress (i : Nat) : CAddress := ⟨⟨BitVec.ofNat 128 (0xffff08080804 + 4 * i), 9333⟩, 1, 0⟩

/-- Five peers that come into one tried bucket, the later ones with earlier times. -/
def fivePeers : List CAddrMan.Call :=
  .add ((List.range 5).map peerAddress) 0xffff09090909 0 0 (fun _ _ => 0) ::
    (List.range 5).map fun i => .good (peerAddress i).service (50 - 10 * i) fun _ => 0

/-- The last entry of the bucket is drawn first, and the others in their turns. -/
def drawLast (i : Nat) : Nat := if i = 0 then 4 else 0

end Sample

namespace CAddrMan

open Sample

theorem selectTried_oldest_iff_five : ∃ s, (empty []).run fivePeers = some s ∧
    (∃ shuffled nPos,
      s.selectTried drawLast 34 = some ({ s with vvTried := Function.update s.vvTried 34 shuffled }, nPos) ∧
      shuffled.Perm (s.vvTried 34) ∧
      ((∃ p nId, nPos = some p ∧ shuffled[p]? = some nId ∧ s.IsOldest drawLast (s.vvTried 34) nId) ↔
        s.OldestInPlace drawLast (s.vvTried 34))) := by
  obtain ⟨s, run, consistent, _⟩ := addrMan_consistent [] fivePeers
  exact ⟨s, run, (selectTried_oldest_iff consistent drawLast 34).1⟩

/-- SelectTried inspects entries with the times 10, 40, 30 and 20, and answers the place of the
entry with the time 50. -/
theorem selectTried_not_oldest :
    (((empty []).run fivePeers).bind fun s => (s.selectTried drawLast 34).map fun (next, nPos) =>
        ((nPos.bind fun p => (next.vvTried 34)[p]?).map s.lastSuccess,
          (inspected drawLast (s.vvTried 34)).map (s.lastSuccess ∘ Prod.fst))) =
      some (some 50, [10, 40, 30, 20]) := by
  decide +kernel

end CAddrMan

end BitCrystal
