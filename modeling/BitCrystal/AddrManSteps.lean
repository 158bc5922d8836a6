import BitCrystal.AddrManTables

namespace BitCrystal

open Data

/-! # The calls of the address manager -/

namespace CAddrMan

variable {s next : CAddrMan} {nId other : Int} {info old : CAddrInfo} {pending : Int → Int}

/-- Between two calls the counters of the entries agree with the buckets. -/
structure Consistent (s : CAddrMan) : Prop extends Indexed s where
  placed : ∀ nId, s.PlacedAt (fun _ => 0) nId

/-! ## ShrinkNew -/

theorem firstTerrible_some (nNow : Int) {vNew : List Int} (known : ∀ nId ∈ vNew, ∃ info, s.mapInfo[nId]? = some info) :
    ∃ found, s.firstTerrible nNow vNew = some found ∧ ∀ nId, found = some nId → nId ∈ vNew := by
  induction vNew with
  | nil => exact ⟨none, rfl, by simp⟩
  | cons nId rest ih =>
      obtain ⟨info, entry⟩ := known nId List.mem_cons_self
      obtain ⟨found, result, member⟩ := ih fun other inRest => known other (List.mem_cons_of_mem nId inRest)
      simp only [firstTerrible, entry, Option.pure_def, Option.bind_eq_bind, Option.bind_some]
      split
      · exact ⟨some nId, rfl, by simp⟩
      · exact ⟨found, result, fun other same => List.mem_cons_of_mem nId (member other same)⟩

theorem oldestAt_some {n : List Nat} (nI : Nat) (nOldest : Option Int) {vNew : List Int}
    (known : ∀ nId, nId ∈ vNew ∨ nOldest = some nId → ∃ info, s.mapInfo[nId]? = some info) :
    ∃ oldest, s.oldestAt n nI nOldest vNew = some oldest ∧
      (∀ nId, oldest = some nId → nId ∈ vNew ∨ nOldest = some nId) ∧
      ((nOldest.isSome ∨ ∃ i ∈ n, nI ≤ i ∧ i < nI + vNew.length) → oldest.isSome) := by
  induction vNew generalizing nI nOldest with
  | nil =>
      refine ⟨nOldest, rfl, fun nId same => .inr same, ?_⟩
      rintro (already | ⟨i, -, from_nI, before⟩)
      · exact already
      · simp only [List.length_nil] at before
        omega
  | cons nId rest ih =>
      obtain ⟨info, entry⟩ := known nId (.inl List.mem_cons_self)
      unfold oldestAt
      -- The candidate for the rest is this item or the one from before.
      have continues : ∀ candidate : Option Int, (∀ other, candidate = some other → other = nId ∨ nOldest = some other) →
          (nI ∈ n ∨ nOldest.isSome → candidate.isSome) →
          ∃ oldest, s.oldestAt n (nI + 1) candidate rest = some oldest ∧
            (∀ other, oldest = some other → other ∈ nId :: rest ∨ nOldest = some other) ∧
            ((nOldest.isSome ∨ ∃ i ∈ n, nI ≤ i ∧ i < nI + (nId :: rest).length) → oldest.isSome) := by
        intro candidate origin chosen
        have known' : ∀ other, other ∈ rest ∨ candidate = some other → ∃ info, s.mapInfo[other]? = some info := by
          rintro other (inRest | same)
          · exact known other (.inl (List.mem_cons_of_mem nId inRest))
          · rcases origin other same with rfl | before
            · exact ⟨info, entry⟩
            · exact known other (.inr before)
        obtain ⟨oldest, result, member, some'⟩ := ih (nI + 1) candidate known'
        refine ⟨oldest, result, ?_, ?_⟩
        · intro other same
          rcases member other same with inRest | isCandidate
          · exact .inl (List.mem_cons_of_mem nId inRest)
          · rcases origin other isCandidate with rfl | before
            · exact .inl List.mem_cons_self
            · exact .inr before
        · rintro (already | ⟨i, inN, from_nI, before⟩)
          · exact some' (.inl (chosen (.inr already)))
          · rcases Nat.eq_or_lt_of_le from_nI with rfl | later
            · exact some' (.inl (chosen (.inl inN)))
            · simp only [List.length_cons] at before
              exact some' (.inr ⟨i, inN, later, by omega⟩)
      split
      · cases nOldest with
        | none => exact continues (some nId) (by simp) (by simp)
        | some first =>
            obtain ⟨infoOld, entryOld⟩ := known first (.inr rfl)
            simp only [entry, entryOld, Option.bind_eq_bind, Option.bind_some]
            refine continues _ ?_ (by simp)
            intro other same
            rw [Option.some.injEq] at same
            split at same
            · exact .inl same.symm
            · exact .inr (congrArg some same)
      · rename_i notAt
        exact continues nOldest (fun other same => .inr same) fun chosen => chosen.resolve_left notAt

theorem shrinkNew_spec {b : Fin ADDRMAN_NEW_BUCKET_COUNT} (rnd : Nat → Nat) (nNow : Int) (indexed : s.Indexed)
    (placed : ∀ nId, s.PlacedAt pending nId) (settled : ∀ nId ∈ s.vvNew b, pending nId = 0)
    (nonempty : 0 < (s.vvNew b).card) :
    ∃ next, s.shrinkNew rnd nNow b = some next ∧ next.Indexed ∧ (∀ nId, next.PlacedAt pending nId) ∧
      (∃ nId ∈ s.vvNew b, next.vvNew = Function.update s.vvNew b ((s.vvNew b).erase nId)) ∧ s.Inherits next := by
  have known : ∀ nId ∈ (s.vvNew b).sort (· ≤ ·), ∃ info, s.mapInfo[nId]? = some info := by
    intro nId member
    rw [Finset.mem_sort] at member
    obtain ⟨info, found, -⟩ := (placed nId).of_mem (settled nId member).ge member
    exact ⟨info, found⟩
  -- Whatever item is chosen, it leaves the bucket.
  have drops : ∀ nId ∈ (s.vvNew b).sort (· ≤ ·), ∃ next, s.dropFromNew b nId = some next ∧ next.Indexed ∧
      (∀ nId, next.PlacedAt pending nId) ∧
      (∃ nId ∈ s.vvNew b, next.vvNew = Function.update s.vvNew b ((s.vvNew b).erase nId)) ∧ s.Inherits next := by
    intro nId member
    rw [Finset.mem_sort] at member
    obtain ⟨next, drop, indexed', placed', erased, inherits⟩ :=
      dropFromNew_spec indexed placed (settled nId member) member
    exact ⟨next, drop, indexed', placed', ⟨nId, member, erased⟩, inherits⟩
  obtain ⟨terrible, first, chosen⟩ := firstTerrible_some nNow known
  simp only [shrinkNew, first, Option.bind_eq_bind, Option.bind_some]
  cases terrible with
  | some nId => exact drops nId (chosen nId rfl)
  | none =>
      obtain ⟨oldest, result, member, found⟩ := oldestAt_some 0 none
        (n := (List.range 4).map fun i => getRandInt (rnd i) ((s.vvNew b).sort (· ≤ ·)).length)
        (fun nId inside => known nId (inside.resolve_right (by simp)))
      have length : ((s.vvNew b).sort (· ≤ ·)).length = (s.vvNew b).card := Finset.length_sort (· ≤ ·)
      have isSome : oldest.isSome := by
        refine found (.inr ⟨getRandInt (rnd 0) ((s.vvNew b).sort (· ≤ ·)).length, ?_, Nat.zero_le _, ?_⟩)
        · exact List.mem_map_of_mem (List.mem_range.mpr (by decide))
        · rw [Nat.zero_add, getRandInt, length]
          exact Nat.mod_lt _ nonempty
      obtain ⟨nId, rfl⟩ := Option.isSome_iff_exists.mp isSome
      simp only [result, Option.bind_some]
      exact drops nId ((member nId rfl).resolve_right (by simp))

/-! ## Add_ -/

theorem of_find {addr : CNetAddr} (found : s.find addr = some (nId, info)) :
    s.mapInfo[nId]? = some info ∧ s.mapAddr[addr]? = some nId := by
  simp only [find, Option.pure_def, Option.bind_eq_bind, Option.bind_eq_some_iff, Option.some.injEq,
    Prod.mk.injEq] at found
  obtain ⟨nId', known, info', entry, rfl, rfl⟩ := found
  exact ⟨entry, known⟩

theorem Indexed.of_not_find (indexed : s.Indexed) {addr : CNetAddr} (absent : s.find addr = none) :
    s.mapAddr[addr]? = none := by
  cases known : s.mapAddr[addr]? with
  | none => rfl
  | some nId =>
      have mine := (indexed.addresses addr nId).mp known
      simp only [address, Option.map_eq_some_iff] at mine
      obtain ⟨info, entry, -⟩ := mine
      simp [find, known, entry] at absent

section

variable {b : Fin ADDRMAN_NEW_BUCKET_COUNT}

/-- The end of Add_: the entry that is ahead of the buckets goes into one. -/
theorem Indexed.enter (indexed : s.Indexed) (placed : ∀ other, s.PlacedAt (Function.update (fun _ => 0) nId 1) other)
    (absent : nId ∉ s.vvNew b) (size : (s.vvNew b).card < ADDRMAN_NEW_BUCKET_SIZE) :
    Consistent { s with vvNew := Function.update s.vvNew b (insert nId (s.vvNew b)) } := by
  refine ⟨indexed.setNew _ ?_, ?_⟩
  · rw [Finset.card_insert_of_notMem absent]
    omega
  · intro other
    have before := placed other
    change Placed 0 (s.status other) (references (Function.update s.vvNew b (insert nId (s.vvNew b))) other)
      (occurrences s.vvTried other)
    rw [references_insert absent other]
    unfold PlacedAt at before
    rw [Function.update_apply] at before
    by_cases same : other = nId
    · rw [if_pos same] at before ⊢
      cases entry : s.status other with
      | none =>
          rw [entry] at before
          exact absurd before.1 (by decide)
      | some kept =>
          rw [entry] at before
          obtain ⟨nRefCount, fInTried⟩ := kept
          obtain ⟨ahead, place⟩ := before
          exact ⟨by omega, place⟩
    · rw [if_neg same] at before
      rw [if_neg same, Nat.add_zero]
      exact before

theorem PlacedAt.bump (others : ∀ other, other ≠ nId → s.PlacedAt (fun _ => 0) other)
    (kind : info.fInTried = false) (counted : info.nRefCount = references s.vvNew nId + 1)
    (room : info.nRefCount ≤ ADDRMAN_NEW_BUCKETS_PER_ADDRESS) (outside : occurrences s.vvTried nId = 0)
    (other : Int) : (s.setInfo nId info).PlacedAt (Function.update (fun _ => 0) nId 1) other := by
  unfold PlacedAt
  rw [setInfo_status, Function.update_apply, Function.update_apply]
  by_cases same : other = nId
  · rw [same, if_pos rfl, if_pos rfl, kind]
    have positive : 1 ≤ info.nRefCount := by omega
    change Placed 1 _ (references s.vvNew nId) (occurrences s.vvTried nId)
    exact ⟨counted, positive, room, outside⟩
  · rw [if_neg same, if_neg same]
    exact others other same

end

/-- Changes that no table sees. -/
structure Touches (old info : CAddrInfo) : Prop where
  addr : info.service.addr = old.service.addr
  nRandomPos : info.nRandomPos = old.nRandomPos
  nRefCount : info.nRefCount = old.nRefCount
  fInTried : info.fInTried = old.fInTried

theorem Consistent.touch (consistent : s.Consistent) (found : s.mapInfo[nId]? = some old) (touches : Touches old info) :
    (s.setInfo nId info).Consistent := by
  refine ⟨consistent.toIndexed.setInfo found touches.nRandomPos touches.addr, ?_⟩
  intro other
  have before := consistent.placed other
  unfold PlacedAt at before ⊢
  rw [setInfo_status, Function.update_apply]
  split
  · rename_i same
    rw [same, status_of_found found] at before
    rw [same, touches.nRefCount, touches.fInTried]
    exact before
  · exact before

theorem updateKnown_touches {nRand : Nat} {nNow : Int} {addr : CAddress} {nTimePenalty : Int} {goesOn : Bool}
    (updated : updateKnown old nRand nNow addr nTimePenalty = (info, goesOn)) :
    Touches old info ∧ info.nLastTry = old.nLastTry ∧ info.nLastSuccess = old.nLastSuccess ∧
      (goesOn = true → old.fInTried = false ∧ old.nRefCount ≠ ADDRMAN_NEW_BUCKETS_PER_ADDRESS) := by
  unfold updateKnown at updated
  extract_lets fCurrentlyOnline nUpdateInterval late nTime known nFactor at updated
  split at updated
  · obtain ⟨rfl, rfl⟩ := Prod.mk.inj updated
    exact ⟨⟨rfl, rfl, rfl, rfl⟩, rfl, rfl, nofun⟩
  · split at updated
    · obtain ⟨rfl, rfl⟩ := Prod.mk.inj updated
      exact ⟨⟨rfl, rfl, rfl, rfl⟩, rfl, rfl, nofun⟩
    · rename_i notTried
      split at updated
      · obtain ⟨rfl, rfl⟩ := Prod.mk.inj updated
        exact ⟨⟨rfl, rfl, rfl, rfl⟩, rfl, rfl, nofun⟩
      · rename_i notFull
        obtain ⟨rfl, -⟩ := Prod.mk.inj updated
        exact ⟨⟨rfl, rfl, rfl, rfl⟩, rfl, rfl, fun _ => ⟨Bool.eq_false_of_not_eq_true notTried, notFull⟩⟩

theorem Indexed.create {addr : CAddress} {source : CNetAddr} (indexed : s.Indexed)
    (absent : s.mapAddr[addr.service.addr]? = none) (sameAddr : info.service.addr = addr.service.addr)
    (atEnd : info.nRandomPos = s.vRandom.length) :
    Indexed { (s.create addr source).setInfo s.nIdCount info with nNew := s.nNew + 1 } := by
  have fresh : s.mapInfo[s.nIdCount]? = none := indexed.old s.nIdCount le_rfl
  have lookup : ∀ nId, ((s.create addr source).setInfo s.nIdCount info).mapInfo[nId]? =
      if nId = s.nIdCount then some info else s.mapInfo[nId]? := by
    intro nId
    rw [setInfo_mapInfo, CAddrMan.create, lookup_insert]
    split <;> rfl
  constructor
  case positions =>
    have pushed : position { (s.create addr source).setInfo s.nIdCount info with nNew := s.nNew + 1 } =
        Function.update s.position s.nIdCount (some s.vRandom.length) := by
      funext nId
      rw [position, lookup, Function.update_apply]
      split
      · rw [Option.map_some, atEnd]
      · rfl
    rw [pushed]
    exact indexed.positions.push (by rw [position, fresh, Option.map_none])
  case addresses =>
    intro ip nId
    change (s.mapAddr.insert addr.service.addr s.nIdCount)[ip]? = some nId ↔ _
    rw [lookup_insert, address, lookup]
    have before := indexed.addresses ip nId
    by_cases isNew : nId = s.nIdCount
    · rw [if_pos isNew, Option.map_some, sameAddr]
      split
      · rename_i here
        simp [isNew, here]
      · rename_i elsewhere
        rw [before, isNew, address, fresh]
        simp [Ne.symm elsewhere]
    · rw [if_neg isNew]
      split
      · rename_i here
        rw [here, absent] at before
        rw [here]
        simp only [reduceCtorEq, false_iff] at before
        exact iff_of_false (fun same => isNew (Option.some.inj same).symm) before
      · exact before
  case old =>
    intro nId notYet
    have later : s.nIdCount + 1 ≤ nId := notYet
    rw [lookup, if_neg (by omega)]
    exact indexed.old nId (by omega)
  case nTried => exact indexed.nTried
  case total =>
    have total := indexed.total
    change ((s.vRandom ++ [s.nIdCount]).length : Int) = s.nTried + (s.nNew + 1)
    rw [List.length_append, List.length_singleton]
    omega
  case newSize => exact indexed.newSize
  case triedSize => exact indexed.triedSize

/-- The times that Check_ asks for. -/
def Timely (s : CAddrMan) : Prop :=
  ∀ (nId : Int) (info : CAddrInfo), s.mapInfo[nId]? = some info →
    0 ≤ info.nLastTry ∧ 0 ≤ info.nLastSuccess ∧ (info.fInTried = true → info.nLastSuccess ≠ 0)

theorem Inherits.timely (inherits : s.Inherits next) (timely : s.Timely) : next.Timely := by
  intro nId info found
  obtain ⟨old, found', sameTry, sameSuccess, kind⟩ := inherits.entry nId info found
  obtain ⟨tried, success, nonzero⟩ := timely nId old found'
  refine ⟨sameTry ▸ tried, sameSuccess ▸ success, ?_⟩
  intro isTried
  rw [sameSuccess]
  rcases kind isTried with before | succeeded
  · exact nonzero before
  · exact succeeded

theorem Timely.setInfo (timely : s.Timely) (tried : 0 ≤ info.nLastTry) (success : 0 ≤ info.nLastSuccess)
    (nonzero : info.fInTried = true → info.nLastSuccess ≠ 0) : (s.setInfo nId info).Timely := by
  intro other info' found
  rw [setInfo_mapInfo] at found
  split at found
  · cases found
    exact ⟨tried, success, nonzero⟩
  · exact timely other info' found

theorem Timely.create {addr : CAddress} {source : CNetAddr} (timely : s.Timely) : (s.create addr source).Timely := by
  intro nId info found
  rw [CAddrMan.create, lookup_insert] at found
  split at found
  · cases found
    exact ⟨le_rfl, le_rfl, nofun⟩
  · exact timely nId info found

section

variable [Hashing]

theorem enterNew_spec (rnd : Nat → Nat) (nNow : Int) (source : CNetAddr) (indexed : s.Indexed)
    (others : ∀ other, other ≠ nId → s.PlacedAt (fun _ => 0) other) (found : s.mapInfo[nId]? = some info)
    (kind : info.fInTried = false) (counted : info.nRefCount = references s.vvNew nId)
    (room : info.nRefCount < ADDRMAN_NEW_BUCKETS_PER_ADDRESS) (outside : occurrences s.vvTried nId = 0) :
    ∃ next, s.enterNew rnd nNow nId source = some next ∧ next.Consistent ∧ s.Inherits next := by
  simp only [enterNew, found, Option.pure_def, Option.bind_eq_bind, Option.bind_some]
  generalize info.getNewBucket s.nKey source = b
  split
  · rename_i member
    have positive := references_pos member
    refine ⟨s, rfl, ⟨indexed, ?_⟩, .of_eq rfl rfl⟩
    intro other
    by_cases same : other = nId
    · rw [same]
      unfold PlacedAt
      rw [status_of_found found, kind]
      have atLeast : 1 ≤ info.nRefCount := by omega
      exact ⟨counted.trans (Int.add_zero _).symm, atLeast, room.le, outside⟩
    · exact others other same
  · rename_i absent
    have bumped : (s.setInfo nId { info with nRefCount := info.nRefCount + 1 }).Indexed :=
      indexed.setInfo found rfl rfl
    have inherits : s.Inherits (s.setInfo nId { info with nRefCount := info.nRefCount + 1 }) :=
      .setInfo found rfl rfl .inl
    have placed : ∀ other, (s.setInfo nId { info with nRefCount := info.nRefCount + 1 }).PlacedAt _ other :=
      PlacedAt.bump others kind (by simp only [counted]) room outside
    split
    · rename_i full
      have settled : ∀ other ∈ s.vvNew b, Function.update (fun _ => (0 : Int)) nId 1 other = 0 := by
        intro other member
        rw [Function.update_of_ne]
        rintro rfl
        exact absent member
      have full' : (s.vvNew b).card = ADDRMAN_NEW_BUCKET_SIZE := full
      have nonempty : 0 < (s.vvNew b).card := by
        rw [full']
        decide
      obtain ⟨next, shrink, indexed', placed', ⟨gone, member, erased⟩, inherits'⟩ :=
        shrinkNew_spec (b := b) rnd nNow bumped placed settled nonempty
      have bucket : next.vvNew b = (s.vvNew b).erase gone := by
        rw [erased, Function.update_self]
        rfl
      have absent' : nId ∉ next.vvNew b := by
        rw [bucket]
        exact fun inside => absent (Finset.mem_of_mem_erase inside)
      have size : (next.vvNew b).card < ADDRMAN_NEW_BUCKET_SIZE := by
        rw [bucket, ← full']
        exact Finset.card_erase_lt_of_mem member
      rw [shrink]
      exact ⟨_, rfl, indexed'.enter placed' absent' size, (inherits.trans inherits').trans (.of_eq rfl rfl)⟩
    · rename_i notFull
      have size : (s.vvNew b).card < ADDRMAN_NEW_BUCKET_SIZE := lt_of_le_of_ne (indexed.newSize _) notFull
      exact ⟨_, rfl, bumped.enter placed absent size, inherits.trans (.of_eq rfl rfl)⟩

/-- The fields of a new entry. -/
structure IsNew (s : CAddrMan) (addr : CAddress) (info : CAddrInfo) : Prop where
  addr : info.service.addr = addr.service.addr
  nRandomPos : info.nRandomPos = s.vRandom.length
  nRefCount : info.nRefCount = 0
  fInTried : info.fInTried = false
  nLastTry : info.nLastTry = 0
  nLastSuccess : info.nLastSuccess = 0

theorem Consistent.createNew (consistent : s.Consistent) (rnd : Nat → Nat) (nNow : Int) {addr : CAddress}
    (source : CNetAddr) (absent : s.mapAddr[addr.service.addr]? = none) (isNew : IsNew s addr info) :
    ∃ next, enterNew { (s.create addr source).setInfo s.nIdCount info with nNew := s.nNew + 1 } rnd nNow
        s.nIdCount source = some next ∧ next.Consistent ∧
      Inherits { (s.create addr source).setInfo s.nIdCount info with nNew := s.nNew + 1 } next := by
  have place := consistent.placed s.nIdCount
  unfold PlacedAt at place
  rw [status, consistent.old s.nIdCount le_rfl] at place
  obtain ⟨-, nowhere, outside⟩ := place
  have others : ∀ other, other ≠ s.nIdCount →
      PlacedAt { (s.create addr source).setInfo s.nIdCount info with nNew := s.nNew + 1 } (fun _ => 0) other := by
    intro other different
    have before := consistent.placed other
    unfold PlacedAt at before ⊢
    have same : status { (s.create addr source).setInfo s.nIdCount info with nNew := s.nNew + 1 } other =
        s.status other := by
      change ((s.create addr source).setInfo s.nIdCount info).status other = s.status other
      rw [setInfo_status, Function.update_of_ne different, status, CAddrMan.create, lookup_insert,
        if_neg different]
      rfl
    rw [same]
    exact before
  have entry : ((s.create addr source).setInfo s.nIdCount info).mapInfo[s.nIdCount]? = some info := by
    rw [setInfo_mapInfo, if_pos rfl]
  have counted : info.nRefCount = references s.vvNew s.nIdCount := by rw [isNew.nRefCount, nowhere, Nat.cast_zero]
  have room : info.nRefCount < ADDRMAN_NEW_BUCKETS_PER_ADDRESS := by
    rw [isNew.nRefCount]
    decide
  exact enterNew_spec rnd nNow source (consistent.toIndexed.create absent isNew.addr isNew.nRandomPos) others entry isNew.fInTried
    counted room outside

theorem add_spec (rnd : Nat → Nat) (nNow : Int) (addr : CAddress) (source : CNetAddr) (nTimePenalty : Int)
    (consistent : s.Consistent) :
    ∃ next fNew, s.add_ rnd nNow addr source nTimePenalty = some (next, fNew) ∧ next.Consistent ∧
      (s.Timely → next.Timely) ∧ next.nIdCount ≤ s.nIdCount + 1 := by
  have indexed := consistent.toIndexed
  have stays : s.nIdCount ≤ s.nIdCount + 1 := by omega
  unfold add_
  split
  · exact ⟨s, false, rfl, consistent, id, stays⟩
  · cases found : s.find addr.service.addr with
    | some entry =>
        obtain ⟨nId, old⟩ := entry
        obtain ⟨entry, -⟩ := of_find found
        simp only
        generalize updated : updateKnown old (rnd 0) nNow addr nTimePenalty = outcome
        obtain ⟨info, goesOn⟩ := outcome
        obtain ⟨touches, sameTry, sameSuccess, allowed⟩ := updateKnown_touches updated
        have touched := consistent.touch entry touches
        have inherits : s.Inherits (s.setInfo nId info) :=
          .setInfo entry sameTry sameSuccess fun isTried => .inl (touches.fInTried ▸ isTried)
        cases goesOn with
        | false => exact ⟨_, false, rfl, touched, inherits.timely, stays⟩
        | true =>
            obtain ⟨notTried, notFull⟩ := allowed rfl
            have entry' : (s.setInfo nId info).mapInfo[nId]? = some info := by rw [setInfo_mapInfo, if_pos rfl]
            have kind : info.fInTried = false := touches.fInTried.trans notTried
            have place := touched.placed nId
            unfold PlacedAt at place
            rw [status_of_found entry', kind] at place
            obtain ⟨counted, -, few, outside⟩ := place
            have room : info.nRefCount < ADDRMAN_NEW_BUCKETS_PER_ADDRESS :=
              lt_of_le_of_ne few (touches.nRefCount ▸ notFull)
            obtain ⟨next, enters, consistent', inherits'⟩ :=
              enterNew_spec (fun i => rnd (i + 1)) nNow source
                touched.toIndexed (fun other _ => touched.placed other) entry' kind
                (counted.trans (Int.add_zero _)) room outside
            simp only [if_true, enters, Option.bind_eq_bind, Option.bind_some, Option.pure_def]
            refine ⟨next, false, rfl, consistent', (inherits.trans inherits').timely, ?_⟩
            rw [(inherits.trans inherits').nIdCount]
            exact stays
    | none =>
        have absent := indexed.of_not_find found
        simp only
        generalize made : { s.newInfo addr source with
          nTime := UInt32.ofInt (max 0 ((s.newInfo addr source).nTime.toNat - nTimePenalty)) } = info
        have isNew : IsNew s addr info := by
          rw [← made]
          exact ⟨rfl, rfl, rfl, rfl, rfl, rfl⟩
        obtain ⟨next, enters, consistent', inherits⟩ :=
          consistent.createNew (fun i => rnd (i + 1)) nNow source absent isNew
        refine ⟨next, true, Option.bind_eq_some_iff.mpr ⟨next, enters, rfl⟩, consistent', ?_, ?_⟩
        · intro timely
          have made : ((s.create addr source).setInfo s.nIdCount info).Timely :=
            timely.create.setInfo isNew.nLastTry.ge isNew.nLastSuccess.ge (by simp [isNew.fInTried])
          exact inherits.timely made
        · rw [inherits.nIdCount]
          exact le_rfl

end

end CAddrMan

end BitCrystal
