import BitCrystal.InterpreterLimits
import BitCrystal.KeyPool
import Mathlib.Data.Set.Basic

namespace BitCrystal

open Data

/-! # Keys of the pool have one holder -/

def KeyAnswers.added (answers : KeyAnswers) : Bool := answers.made && answers.fPoolWritten

/-- The generator makes valid keys and no key twice. -/
structure KeySource.Distinct (source : KeySource) : Prop where
  valid : ∀ n, (source.generated n).fGenerated → (source.generated n).key.isValid
  once : ∀ {n m}, (source.generated n).fGenerated → (source.generated m).fGenerated →
    (source.generated n).key = (source.generated m).key → n = m

namespace CWallet

variable [ScriptDigests] {source : KeySource}

/-- The index is free or reserved; `held` has the reserved indices with the keys that their
holders were given. -/
def Live (held : Set (Int × CPubKey)) (wallet : CWallet) (nIndex : Int) : Prop :=
  nIndex ∈ wallet.setKeyPool ∨ ∃ key, (nIndex, key) ∈ held

def Records (held : Set (Int × CPubKey)) (wallet : CWallet) (nIndex : Int) (key : CPubKey) : Prop :=
  wallet.Live held nIndex ∧ wallet.pool[nIndex]? = some ⟨key⟩

/-- What holds of the wallet between two calls; `kept` has the keys that were handed out for good. -/
structure Sound (source : KeySource) (held : Set (Int × CPubKey)) (kept : List CPubKey) (wallet : CWallet) :
    Prop where
  positive : ∀ {nIndex}, wallet.Live held nIndex → 1 ≤ nIndex
  apart : ∀ {nIndex key}, nIndex ∈ wallet.setKeyPool → (nIndex, key) ∉ held
  holds : ∀ {nIndex key}, (nIndex, key) ∈ held → wallet.pool[nIndex]? = some ⟨key⟩
  recorded : ∀ {nIndex}, wallet.Live held nIndex → ∃ key, wallet.Records held nIndex key
  valid : ∀ {nIndex key}, wallet.Records held nIndex key → key.isValid ∧ key.getID ∈ wallet.mapKeys
  distinct : ∀ {nIndex other key}, wallet.Records held nIndex key → wallet.Records held other key →
    nIndex = other
  unused : ∀ {nIndex key}, wallet.Records held nIndex key → key ∉ kept
  keptOnce : kept.Nodup
  later : ∀ {n}, wallet.nGenerated ≤ n → (source.generated n).fGenerated →
    (source.generated n).key ∉ kept ∧ ∀ nIndex, ¬ wallet.Records held nIndex (source.generated n).key

/-- A key that is known to the wallet and was not handed out so far. -/
structure New (source : KeySource) (held : Set (Int × CPubKey)) (kept : List CPubKey) (wallet : CWallet)
    (key : CPubKey) : Prop where
  valid : key.isValid
  known : key.getID ∈ wallet.mapKeys
  unrecorded : ∀ nIndex, ¬ wallet.Records held nIndex key
  unkept : key ∉ kept
  old : ∀ n, wallet.nGenerated ≤ n → (source.generated n).fGenerated → (source.generated n).key ≠ key

variable {held held' : Set (Int × CPubKey)} {kept : List CPubKey} {wallet after : CWallet} {nIndex : Int}
  {key : CPubKey}

namespace Sound

theorem move (sound : wallet.Sound source held kept)
    (live : ∀ nIndex, after.Live held' nIndex → wallet.Live held nIndex)
    (same : ∀ nIndex, after.Live held' nIndex → after.pool[nIndex]? = wallet.pool[nIndex]?)
    (apart : ∀ nIndex key, nIndex ∈ after.setKeyPool → (nIndex, key) ∉ held')
    (holds : ∀ nIndex key, (nIndex, key) ∈ held' → wallet.pool[nIndex]? = some ⟨key⟩)
    (known : wallet.mapKeys ⊆ after.mapKeys) (counted : wallet.nGenerated ≤ after.nGenerated) :
    after.Sound source held' kept := by
  have back : ∀ nIndex key, after.Records held' nIndex key → wallet.Records held nIndex key := by
    rintro nIndex key ⟨isLive, found⟩
    exact ⟨live nIndex isLive, same nIndex isLive ▸ found⟩
  constructor
  case positive => exact fun isLive => sound.positive (live _ isLive)
  case apart => exact fun member => apart _ _ member
  case holds =>
    intro nIndex key member
    rw [same nIndex (.inr ⟨key, member⟩)]
    exact holds nIndex key member
  case recorded =>
    intro nIndex isLive
    obtain ⟨key, -, found⟩ := sound.recorded (live nIndex isLive)
    exact ⟨key, isLive, (same nIndex isLive).trans found⟩
  case valid =>
    intro nIndex key records
    obtain ⟨isValid, isKnown⟩ := sound.valid (back _ _ records)
    exact ⟨isValid, known isKnown⟩
  case distinct => exact fun first second => sound.distinct (back _ _ first) (back _ _ second)
  case unused => exact fun records => sound.unused (back _ _ records)
  case keptOnce => exact sound.keptOnce
  case later =>
    intro n notYet made
    obtain ⟨notKept, notRecorded⟩ := sound.later (counted.trans notYet) made
    exact ⟨notKept, fun nIndex records => notRecorded nIndex (back _ _ records)⟩

theorem frame (sound : wallet.Sound source held kept) (sameSet : after.setKeyPool = wallet.setKeyPool)
    (samePool : after.pool = wallet.pool) (known : wallet.mapKeys ⊆ after.mapKeys)
    (counted : wallet.nGenerated ≤ after.nGenerated) : after.Sound source held kept := by
  refine sound.move ?_ ?_ ?_ ?_ known counted
  · intro nIndex isLive
    simpa only [Live, sameSet] using isLive
  · intro nIndex _
    rw [samePool]
  · intro nIndex key member
    exact sound.apart (sameSet ▸ member)
  · exact fun nIndex key => sound.holds

theorem release (sound : wallet.Sound source held kept) (fewer : held' ⊆ held) :
    wallet.Sound source held' kept := by
  refine sound.move ?_ (fun _ _ => rfl) ?_ ?_ (fun _ known => known) le_rfl
  · rintro nIndex (member | ⟨key, member⟩)
    · exact .inl member
    · exact .inr ⟨key, fewer member⟩
  · exact fun nIndex key member isHeld => sound.apart member (fewer isHeld)
  · exact fun nIndex key member => sound.holds (fewer member)

theorem keep (sound : wallet.Sound source held kept) (new : wallet.New source held kept key) :
    wallet.Sound source held (key :: kept) where
  positive := sound.positive
  apart := sound.apart
  holds := sound.holds
  recorded := sound.recorded
  valid := sound.valid
  distinct := sound.distinct
  unused := by
    intro nIndex other records
    have different : other ≠ key := by
      rintro rfl
      exact new.unrecorded nIndex records
    simp [different, sound.unused records]
  keptOnce := sound.keptOnce.cons new.unkept
  later := by
    intro n notYet made
    obtain ⟨notKept, notRecorded⟩ := sound.later notYet made
    exact ⟨by simp [new.old n notYet made, notKept], notRecorded⟩

theorem add (sound : wallet.Sound source held kept) (positive : 1 ≤ nIndex)
    (notHeld : ∀ key, (nIndex, key) ∉ held) (new : wallet.New source held kept key) :
    ({ wallet with pool := wallet.pool.insert nIndex ⟨key⟩ }.insertIndex nIndex).Sound source held kept := by
  have cases : ∀ {other : Int} {value : CPubKey},
      ({ wallet with pool := wallet.pool.insert nIndex ⟨key⟩ }.insertIndex nIndex).Records held other value →
        other = nIndex ∧ value = key ∨ other ≠ nIndex ∧ wallet.Records held other value := by
    intro other value records
    simp only [Records, Live, insertIndex, Finset.mem_insert, Std.ExtTreeMap.getElem?_insert,
      Std.compare_eq_iff_eq] at records
    by_cases same : other = nIndex
    · simp_all
    · have different : nIndex ≠ other := fun eq => same eq.symm
      exact .inr ⟨same, by simpa [same, different, Records, Live] using records⟩
  constructor
  case positive =>
    intro other isLive
    by_cases same : other = nIndex
    · exact same ▸ positive
    · exact sound.positive (by simpa [Live, insertIndex, same] using isLive)
  case apart =>
    intro other value member
    rcases Finset.mem_insert.mp member with rfl | member
    · exact notHeld value
    · exact sound.apart member
  case holds =>
    intro other value member
    have different : nIndex ≠ other := by
      rintro rfl
      exact notHeld value member
    simpa [insertIndex, Std.ExtTreeMap.getElem?_insert, different] using sound.holds member
  case recorded =>
    intro other isLive
    by_cases same : nIndex = other
    · exact ⟨key, isLive, by simp [insertIndex, same]⟩
    · obtain ⟨value, -, found⟩ := sound.recorded (by simpa [Live, insertIndex, Ne.symm same] using isLive)
      exact ⟨value, isLive, by simpa [insertIndex, Std.ExtTreeMap.getElem?_insert, same] using found⟩
  case valid =>
    intro other value records
    rcases cases records with ⟨rfl, rfl⟩ | ⟨-, records⟩
    · exact ⟨new.valid, new.known⟩
    · exact sound.valid records
  case distinct =>
    intro other another value first second
    rcases cases first with ⟨rfl, rfl⟩ | ⟨-, recorded⟩
    · rcases cases second with ⟨rfl, -⟩ | ⟨-, recorded⟩
      · rfl
      · exact absurd recorded (new.unrecorded another)
    · rcases cases second with ⟨-, rfl⟩ | ⟨-, recorded'⟩
      · exact absurd recorded (new.unrecorded other)
      · exact sound.distinct recorded recorded'
  case unused =>
    intro other value records
    rcases cases records with ⟨-, rfl⟩ | ⟨-, records⟩
    · exact new.unkept
    · exact sound.unused records
  case keptOnce => exact sound.keptOnce
  case later =>
    intro n notYet made
    obtain ⟨notKept, notRecorded⟩ := sound.later notYet made
    refine ⟨notKept, fun other records => ?_⟩
    rcases cases records with ⟨-, eq⟩ | ⟨-, records⟩
    · exact new.old n notYet made eq
    · exact notRecorded other records

end Sound

/-! ## Making keys -/

/-- One key was taken from the generator. -/
structure Counted (wallet next : CWallet) : Prop where
  setKeyPool : next.setKeyPool = wallet.setKeyPool
  fLocked : next.fLocked = wallet.fLocked
  nGenerated : next.nGenerated = wallet.nGenerated + 1

theorem generateNewKey_counted : wallet.Counted (wallet.generateNewKey source).1 := by
  simp only [generateNewKey]
  split_ifs <;> exact ⟨rfl, rfl, rfl⟩

theorem generateNewKey_pool : (wallet.generateNewKey source).1.pool = wallet.pool := by
  simp only [generateNewKey]
  split_ifs <;> rfl

theorem generateNewKey_mapKeys : wallet.mapKeys ⊆ (wallet.generateNewKey source).1.mapKeys := by
  simp only [generateNewKey]
  split_ifs <;> simp

theorem generateNewKey_eq_ok :
    (wallet.generateNewKey source).2 = .ok key ↔
      (source.generated wallet.nGenerated).made ∧ (source.generated wallet.nGenerated).key = key := by
  simp only [generateNewKey, KeyAnswers.made]
  split_ifs <;> simp [*]

theorem generateNewKey_sound (sound : wallet.Sound source held kept) :
    (wallet.generateNewKey source).1.Sound source held kept :=
  sound.frame generateNewKey_counted.setKeyPool generateNewKey_pool generateNewKey_mapKeys
    (generateNewKey_counted.nGenerated ▸ Nat.le_succ _)

variable (key) in
theorem generateNewKey_new (distinct : source.Distinct) (sound : wallet.Sound source held kept)
    (generated : (wallet.generateNewKey source).2 = .ok key) :
    (wallet.generateNewKey source).1.New source held kept key := by
  obtain ⟨made, rfl⟩ := generateNewKey_eq_ok.mp generated
  simp only [KeyAnswers.made, Bool.and_eq_true] at made
  obtain ⟨notKept, notRecorded⟩ := sound.later le_rfl made.1.1
  constructor
  case valid => exact distinct.valid wallet.nGenerated made.1.1
  case known => simp [generateNewKey, made]
  case unrecorded =>
    intro nIndex records
    simp only [Records, Live, generateNewKey_counted.setKeyPool, generateNewKey_pool] at records
    exact notRecorded nIndex records
  case unkept => exact notKept
  case old =>
    intro n notYet made' same
    have := distinct.once made' made.1.1 same
    rw [generateNewKey_counted.nGenerated] at notYet
    omega

theorem writeNewKey_counted : wallet.Counted (wallet.writeNewKey source nIndex).1 := by
  have counted : wallet.Counted (wallet.generateNewKey source).1 := generateNewKey_counted
  unfold writeNewKey
  rcases made : wallet.generateNewKey source with ⟨next, what | key⟩
  · simpa only [made] using counted
  · rw [made] at counted
    dsimp only
    split
    · exact ⟨counted.setKeyPool, counted.fLocked, counted.nGenerated⟩
    · exact counted

theorem writeNewKey_eq_ok {written : Bool} :
    (wallet.writeNewKey source nIndex).2 = .ok written ↔
      (source.generated wallet.nGenerated).made ∧
        (source.generated wallet.nGenerated).fPoolWritten = written := by
  have answer := fun key => @generateNewKey_eq_ok _ source wallet key
  unfold writeNewKey
  rcases made : wallet.generateNewKey source with ⟨next, what | key⟩
  · have unmade : (source.generated wallet.nGenerated).made = false := by simpa [made] using answer
    simp [unmade]
  · have isMade := (made ▸ answer key).mp rfl |>.1
    dsimp only
    split <;> simp [*]

variable (nIndex) in
theorem writeNewKey_unwritten (sound : wallet.Sound source held kept)
    (unwritten : (wallet.writeNewKey source nIndex).2 ≠ .ok true) :
    (wallet.writeNewKey source nIndex).1.Sound source held kept := by
  have made := generateNewKey_sound sound
  unfold writeNewKey at unwritten ⊢
  rcases out : wallet.generateNewKey source with ⟨next, what | key⟩
  · simpa only [out] using made
  · simp only [out] at unwritten made ⊢
    split
    · simp_all
    · exact made

theorem writeNewKey_written (distinct : source.Distinct) (sound : wallet.Sound source held kept)
    (positive : 1 ≤ nIndex) (notHeld : ∀ key, (nIndex, key) ∉ held)
    (written : (wallet.writeNewKey source nIndex).2 = .ok true) :
    ((wallet.writeNewKey source nIndex).1.insertIndex nIndex).Sound source held kept := by
  have made := generateNewKey_sound sound
  have new := fun key => generateNewKey_new key distinct sound
  unfold writeNewKey at written ⊢
  rcases out : wallet.generateNewKey source with ⟨next, what | key⟩
  · simp [out] at written
  · simp only [out] at written made new ⊢
    split
    · exact made.add positive notHeld (new key rfl)
    · simp_all

theorem Sound.clearKeyPool (sound : wallet.Sound source held kept) :
    wallet.clearKeyPool.Sound source held kept := by
  refine sound.move ?_ ?_ ?_ (fun _ _ => sound.holds) (fun _ known => known) le_rfl
  · rintro nIndex (member | isHeld)
    · exact absurd member (Finset.notMem_empty nIndex)
    · exact .inr isHeld
  · rintro nIndex (member | ⟨key, isHeld⟩)
    · exact absurd member (Finset.notMem_empty nIndex)
    · have free : nIndex ∉ wallet.setKeyPool := fun member => sound.apart member isHeld
      simp [CWallet.clearKeyPool, Std.ExtTreeMap.getElem?_filter, sound.holds isHeld, free]
  · exact fun nIndex key member => absurd member (Finset.notMem_empty nIndex)

/-! ## Filling the pool -/

/-- The indices that have holders. -/
def Reserved (held : Set (Int × CPubKey)) : Set Int := { nIndex | ∃ key, (nIndex, key) ∈ held }

/-- Each of the next `count` new keys is allowed its index, counted from `first`, as far as
the calls succeed. -/
def EachNew (source : KeySource) (succeeds : KeyAnswers → Bool) (allowed : Int → KeyAnswers → Prop)
    (wallet : CWallet) (first : Int) (count : Nat) : Prop :=
  ∀ k < count, (∀ j ≤ k, succeeds (source.generated (wallet.nGenerated + j))) →
    allowed (first + k) (source.generated (wallet.nGenerated + k))

/-- NewKeyPool writes no reserved index, and none of its writes fails. -/
def WritesApart (source : KeySource) (reserved : Set Int) : CWallet → Int → Nat → Prop :=
  EachNew source KeyAnswers.made fun nIndex answers => nIndex ∉ reserved ∧ answers.fPoolWritten

/-- TopUpKeyPool adds no reserved index. -/
def AddsApart (source : KeySource) (reserved : Set Int) : CWallet → Int → Nat → Prop :=
  EachNew source KeyAnswers.added fun nIndex _ => nIndex ∉ reserved

namespace EachNew

variable {succeeds : KeyAnswers → Bool} {allowed : Int → KeyAnswers → Prop} {first : Int} {count : Nat}

omit [ScriptDigests] in
theorem now (each : EachNew source succeeds allowed wallet first (count + 1))
    (success : succeeds (source.generated wallet.nGenerated)) :
    allowed first (source.generated wallet.nGenerated) := by
  simpa [success] using each 0 (Nat.succ_pos count)

omit [ScriptDigests] in
theorem later (each : EachNew source succeeds allowed wallet first (count + 1))
    (success : succeeds (source.generated wallet.nGenerated)) (counted : wallet.Counted after) :
    EachNew source succeeds allowed (after.insertIndex nIndex) (first + 1) count := by
  intro k inRange successes
  have shift : ∀ j, (after.insertIndex nIndex).nGenerated + j = wallet.nGenerated + (j + 1) := by
    intro j
    simp only [insertIndex, counted.nGenerated]
    omega
  have index : first + 1 + k = first + ((k + 1 : Nat) : Int) := by
    push_cast
    ring
  rw [index, shift k]
  refine each (k + 1) (by omega) fun j inTurn => ?_
  cases j with
  | zero => exact success
  | succ j => exact shift j ▸ successes j (by omega)

end EachNew

theorem writeNewKeys_sound (distinct : source.Distinct) {left : Nat} (sound : wallet.Sound source held kept)
    (positive : 1 ≤ nIndex) (apart : wallet.WritesApart source (Reserved held) nIndex left) :
    (wallet.writeNewKeys source left nIndex).1.Sound source held kept := by
  induction left generalizing wallet nIndex with
  | zero => exact sound
  | succ left ih =>
      have counted : wallet.Counted (wallet.writeNewKey source nIndex).1 := writeNewKey_counted
      have unwritten := writeNewKey_unwritten nIndex sound
      have answered := @writeNewKey_eq_ok _ source wallet nIndex
      unfold writeNewKeys
      rcases out : wallet.writeNewKey source nIndex with ⟨next, what | written⟩
      · simp only [out] at unwritten ⊢
        exact unwritten (by simp)
      · obtain ⟨made, fPoolWritten⟩ := answered.mp (congrArg Prod.snd out)
        obtain ⟨free, isWritten⟩ := EachNew.now apart made
        have added := writeNewKey_written distinct sound positive (fun key isHeld => free ⟨key, isHeld⟩)
          (answered.mpr ⟨made, isWritten⟩)
        simp only [out] at counted added ⊢
        exact ih added (by omega) (EachNew.later apart made counted)

theorem newKeyPool_sound (distinct : source.Distinct) (sound : wallet.Sound source held kept)
    (apart : wallet.fLocked = false → wallet.WritesApart source (Reserved held) 1 source.nKeys) :
    (wallet.newKeyPool source).1.Sound source held kept := by
  have cleared := sound.clearKeyPool
  unfold newKeyPool
  dsimp only
  cases locked : wallet.fLocked with
  | true => simpa using cleared
  | false =>
      have written := writeNewKeys_sound distinct cleared le_rfl (apart locked)
      rcases out : wallet.clearKeyPool.writeNewKeys source source.nKeys 1 with ⟨next, what | _⟩ <;>
        simpa [out] using written

omit [ScriptDigests] in
theorem le_of_mem {other : Int} (member : other ∈ wallet.setKeyPool) : other < wallet.nEnd := by
  have nonempty : wallet.setKeyPool.Nonempty := ⟨other, member⟩
  simp only [nEnd, nonempty, ↓reduceDIte]
  have := Finset.le_max' wallet.setKeyPool other member
  omega

theorem nEnd_positive (sound : wallet.Sound source held kept) : 1 ≤ wallet.nEnd := by
  unfold nEnd
  split
  · rename_i nonempty
    have := sound.positive (.inl (Finset.max'_mem wallet.setKeyPool nonempty))
    omega
  · exact le_rfl

omit [ScriptDigests] in
theorem nEnd_insertIndex (counted : wallet.Counted after) :
    (after.insertIndex wallet.nEnd).nEnd = wallet.nEnd + 1 := by
  have nonempty : (insert wallet.nEnd wallet.setKeyPool).Nonempty := Finset.insert_nonempty _ _
  have greatest : (insert wallet.nEnd wallet.setKeyPool).max' nonempty = wallet.nEnd := by
    refine (Finset.max'_eq_iff _ nonempty _).mpr ⟨Finset.mem_insert_self _ _, fun other member => ?_⟩
    rcases Finset.mem_insert.mp member with rfl | member
    · exact le_rfl
    · exact (le_of_mem member).le
  rw [CWallet.nEnd]
  simp only [insertIndex, counted.setKeyPool, nonempty, ↓reduceDIte, greatest]

theorem topUpLoop_sound (distinct : source.Distinct) {turns : Nat} (sound : wallet.Sound source held kept)
    (apart : wallet.AddsApart source (Reserved held) wallet.nEnd turns) :
    (wallet.topUpLoop source turns).1.Sound source held kept := by
  induction turns generalizing wallet with
  | zero => exact sound
  | succ turns ih =>
      have counted : wallet.Counted (wallet.writeNewKey source wallet.nEnd).1 := writeNewKey_counted
      have unwritten := writeNewKey_unwritten wallet.nEnd sound
      have answered := @writeNewKey_eq_ok _ source wallet wallet.nEnd true
      unfold topUpLoop
      split
      · rcases out : wallet.writeNewKey source wallet.nEnd with ⟨next, what | written⟩
        · simp only [out] at unwritten ⊢
          exact unwritten (by simp)
        · cases written with
          | false =>
              simp only [out] at unwritten ⊢
              exact unwritten (by simp)
          | true =>
              have success : (source.generated wallet.nGenerated).added := by
                simpa [KeyAnswers.added] using answered.mp (congrArg Prod.snd out)
              have free := EachNew.now apart success
              have added := writeNewKey_written distinct sound (nEnd_positive sound)
                (fun key isHeld => free ⟨key, isHeld⟩) (congrArg Prod.snd out)
              simp only [out] at counted added ⊢
              exact ih added ((nEnd_insertIndex counted).symm ▸ EachNew.later apart success counted)
      · exact sound

theorem topUpKeyPool_sound (distinct : source.Distinct) (sound : wallet.Sound source held kept)
    (apart : wallet.fLocked = false →
      wallet.AddsApart source (Reserved held) wallet.nEnd (wallet.missing source)) :
    (wallet.topUpKeyPool source).1.Sound source held kept := by
  unfold topUpKeyPool
  cases locked : wallet.fLocked with
  | true => simpa using sound
  | false =>
      have added := topUpLoop_sound distinct sound (apart locked)
      rcases out : wallet.topUpLoop source (wallet.missing source) with ⟨next, what | _⟩ <;>
        simpa [out] using added

/-! ## Reserving keys -/

/-- How a reservation ends: the index goes from the pool to the caller, with its key. -/
inductive Reservation.Sound (source : KeySource) (held : Set (Int × CPubKey)) (kept : List CPubKey) :
    Reservation → Prop
  | failed {wallet : CWallet} {what : String} (sound : wallet.Sound source held kept) :
      Reservation.Sound source held kept ⟨wallet, -1, .error what⟩
  | nothing {wallet : CWallet} (sound : wallet.Sound source held kept) :
      Reservation.Sound source held kept ⟨wallet, -1, .ok ⟨.empty⟩⟩
  | reserved {wallet : CWallet} {nIndex : Int} {key : CPubKey} (notHeld : ∀ key, (nIndex, key) ∉ held)
      (sound : wallet.Sound source (insert (nIndex, key) held) kept) :
      Reservation.Sound source held kept ⟨wallet, nIndex, .ok ⟨key⟩⟩

theorem takeOldest_sound (sound : wallet.Sound source held kept) :
    wallet.takeOldest.Sound source held kept := by
  unfold takeOldest
  split
  · rename_i nonempty
    have member := Finset.min'_mem wallet.setKeyPool nonempty
    generalize wallet.setKeyPool.min' nonempty = nIndex at member
    obtain ⟨key, records⟩ := sound.recorded (.inl member)
    obtain ⟨isValid, known⟩ := sound.valid records
    have taken : ({ wallet with setKeyPool := wallet.setKeyPool.erase nIndex } : CWallet).Sound source
        (insert (nIndex, key) held) kept := by
      refine sound.move ?_ (fun _ _ => rfl) ?_ ?_ (fun _ known => known) le_rfl
      · rintro other (stays | ⟨value, same | isHeld⟩)
        · exact .inl (Finset.mem_of_mem_erase stays)
        · exact .inl ((Prod.mk.inj same).1 ▸ member)
        · exact .inr ⟨value, isHeld⟩
      · rintro other value stays (same | isHeld)
        · exact Finset.ne_of_mem_erase stays (Prod.mk.inj same).1
        · exact sound.apart (Finset.mem_of_mem_erase stays) isHeld
      · rintro other value (same | isHeld)
        · obtain ⟨rfl, rfl⟩ := Prod.mk.inj same
          exact records.2
        · exact sound.holds isHeld
    simp only [records.2, known, not_true_eq_false, isValid, ↓reduceIte]
    exact .reserved (fun _ => sound.apart member) taken
  · exact .nothing sound

def TopUpApart (source : KeySource) (reserved : Set Int) (wallet : CWallet) : Prop :=
  wallet.fLocked = false → wallet.AddsApart source reserved wallet.nEnd (wallet.missing source)

theorem reserveKeyFromKeyPool_sound (distinct : source.Distinct) (sound : wallet.Sound source held kept)
    (apart : wallet.TopUpApart source (Reserved held)) :
    (wallet.reserveKeyFromKeyPool source).Sound source held kept := by
  unfold reserveKeyFromKeyPool
  split
  · exact takeOldest_sound sound
  · have filled := topUpKeyPool_sound distinct sound apart
    rcases out : wallet.topUpKeyPool source with ⟨next, what | _⟩
    · exact .failed (by simpa only [out] using filled)
    · exact takeOldest_sound (by simpa only [out] using filled)

theorem keepKey_sound (sound : wallet.Sound source held kept) (mine : (nIndex, key) ∈ held)
    (fewer : held' ⊆ held) (gone : ∀ key, (nIndex, key) ∉ held') :
    (wallet.keepKey nIndex).Sound source held' (key :: kept) := by
  have records : wallet.Records held nIndex key := ⟨.inr ⟨key, mine⟩, sound.holds mine⟩
  have notLive : ∀ {other}, wallet.Live held' other → other ≠ nIndex := by
    rintro other (member | ⟨value, isHeld⟩) rfl
    · exact sound.apart member mine
    · exact gone value isHeld
  obtain ⟨isValid, known⟩ := sound.valid records
  have new : wallet.New source held' kept key :=
    { valid := isValid
      known := known
      unrecorded := by
        rintro other ⟨isLive, found⟩
        refine notLive isLive (sound.distinct ⟨?_, found⟩ records)
        exact isLive.imp id fun ⟨value, isHeld⟩ => ⟨value, fewer isHeld⟩
      unkept := sound.unused records
      old := fun n notYet made same => (sound.later notYet made).2 nIndex (same ▸ records) }
  have kept := (sound.release fewer).keep new
  unfold keepKey
  split
  · refine kept.move (fun _ isLive => isLive) ?_ (fun _ _ => kept.apart) (fun _ _ => kept.holds)
      (fun _ known => known) le_rfl
    intro other isLive
    have different := (notLive isLive).symm
    simp [erasePool, Std.ExtTreeMap.getElem?_erase, different]
  · exact kept

theorem returnKey_sound (sound : wallet.Sound source held kept) (mine : (nIndex, key) ∈ held)
    (fewer : held' ⊆ held) (gone : ∀ key, (nIndex, key) ∉ held') :
    (wallet.returnKey nIndex).Sound source held' kept := by
  refine sound.move ?_ (fun _ _ => rfl) ?_ ?_ (fun _ known => known) le_rfl
  · rintro other (member | ⟨value, isHeld⟩)
    · rcases Finset.mem_insert.mp member with rfl | member
      · exact .inr ⟨key, mine⟩
      · exact .inl member
    · exact .inr ⟨value, fewer isHeld⟩
  · rintro other value member isHeld
    rcases Finset.mem_insert.mp member with rfl | member
    · exact gone value isHeld
    · exact sound.apart member (fewer isHeld)
  · exact fun other value isHeld => sound.holds (fewer isHeld)

/-- How GetKeyFromPool ends: a key that it hands out as new is not handed out again. -/
inductive Handed (source : KeySource) (held : Set (Int × CPubKey)) (kept : List CPubKey) :
    CWallet × Except String (Option (CPubKey × Bool)) → Prop
  | nothing {wallet : CWallet} {answer : Except String (Option (CPubKey × Bool))}
      (unhanded : ∀ key, answer ≠ .ok (some (key, true))) (sound : wallet.Sound source held kept) :
      Handed source held kept (wallet, answer)
  | handed {wallet : CWallet} {key : CPubKey} (sound : wallet.Sound source held (key :: kept)) :
      Handed source held kept (wallet, .ok (some (key, true)))

theorem getKeyFromPool_handed (distinct : source.Distinct) (sound : wallet.Sound source held kept)
    (apart : wallet.TopUpApart source (Reserved held)) (fAllowReuse : Bool) :
    Handed source held kept (wallet.getKeyFromPool source fAllowReuse) := by
  have spec := reserveKeyFromKeyPool_sound distinct sound apart
  unfold getKeyFromPool
  generalize wallet.reserveKeyFromKeyPool source = reservation at spec
  cases spec with
  | failed sound => exact .nothing (by simp) sound
  | @nothing next sound =>
      have made := generateNewKey_sound sound
      have new := fun key => generateNewKey_new key distinct sound
      simp only [↓reduceIte]
      split
      · exact .nothing (by simp) sound
      · split
        · exact .nothing (by simp) sound
        · rcases out : next.generateNewKey source with ⟨last, what | key⟩ <;> simp only [out] at made new ⊢
          · exact .nothing (by simp) made
          · exact .handed (made.keep (new key rfl))
  | @reserved next nIndex key notHeld sound =>
      have positive := sound.positive (.inr ⟨key, .inl rfl⟩)
      have given : nIndex ≠ -1 := by omega
      simp only [given, ↓reduceIte]
      exact .handed (keepKey_sound sound (.inl rfl) (fun _ isHeld => .inr isHeld) notHeld)

theorem getOldestKeyPoolTime_sound (distinct : source.Distinct) (sound : wallet.Sound source held kept)
    (apart : wallet.TopUpApart source (Reserved held)) :
    (wallet.getOldestKeyPoolTime source).Sound source held kept := by
  have spec := reserveKeyFromKeyPool_sound distinct sound apart
  unfold getOldestKeyPoolTime
  generalize wallet.reserveKeyFromKeyPool source = reservation at spec
  cases spec with
  | failed sound => exact sound
  | nothing sound => exact sound
  | @reserved next nIndex key notHeld sound =>
      have positive := sound.positive (.inr ⟨key, .inl rfl⟩)
      have given : nIndex ≠ -1 := by omega
      simp only [given, ↓reduceIte]
      exact returnKey_sound sound (.inl rfl) (fun _ isHeld => .inr isHeld) notHeld

end CWallet

/-! ## Runs -/

/-- The wallet with the reserve keys of its users, and the keys that were handed out as new to
users that keep them. -/
structure PoolState (Holder : Type) where
  wallet : CWallet
  reserves : Holder → CReserveKey
  kept : List CPubKey

inductive PoolCall (Holder : Type) where
  | newKeyPool
  | topUpKeyPool
  | getKeyFromPool (fAllowReuse : Bool)
  | getOldestKeyPoolTime
  | getReservedKey (holder : Holder)
  | keepKey (holder : Holder)
  | returnKey (holder : Holder)
  | lock (fLocked : Bool)

namespace PoolState

variable {Holder : Type} [DecidableEq Holder] [ScriptDigests] (source : KeySource)

/-- One call, which may throw. -/
def step (s : PoolState Holder) : PoolCall Holder → PoolState Holder
  | .newKeyPool => { s with wallet := (s.wallet.newKeyPool source).1 }
  | .topUpKeyPool => { s with wallet := (s.wallet.topUpKeyPool source).1 }
  | .getKeyFromPool fAllowReuse =>
      match s.wallet.getKeyFromPool source fAllowReuse with
      | (next, .ok (some (key, true))) => { s with wallet := next, kept := key :: s.kept }
      | (next, _) => { s with wallet := next }
  | .getOldestKeyPoolTime => { s with wallet := s.wallet.getOldestKeyPoolTime source }
  | .getReservedKey holder =>
      let after := (s.reserves holder).getReservedKey source s.wallet
      { s with wallet := after.1, reserves := Function.update s.reserves holder after.2.1 }
  | .keepKey holder =>
      let after := (s.reserves holder).keepKey s.wallet
      { wallet := after.1
        reserves := Function.update s.reserves holder after.2
        kept := if (s.reserves holder).nIndex ≠ -1 then (s.reserves holder).vchPubKey :: s.kept else s.kept }
  | .returnKey holder =>
      let after := (s.reserves holder).returnKey s.wallet
      { s with wallet := after.1, reserves := Function.update s.reserves holder after.2 }
  | .lock fLocked => { s with wallet := { s.wallet with fLocked := fLocked } }

/-- The indices that are reserved, with the keys their holders were given. -/
def held (s : PoolState Holder) : Set (Int × CPubKey) :=
  { reserve | reserve.1 ≠ -1 ∧ ∃ holder, s.reserves holder = ⟨reserve.1, reserve.2⟩ }

/-- The call writes no pool record under a reserved index, and NewKeyPool writes every record. -/
def Apart (s : PoolState Holder) : PoolCall Holder → Prop
  | .newKeyPool => s.wallet.fLocked = false →
      s.wallet.WritesApart source (CWallet.Reserved s.held) 1 source.nKeys
  | .topUpKeyPool | .getKeyFromPool _ | .getOldestKeyPoolTime =>
      s.wallet.TopUpApart source (CWallet.Reserved s.held)
  | .getReservedKey holder => (s.reserves holder).nIndex = -1 →
      s.wallet.TopUpApart source (CWallet.Reserved s.held)
  | .keepKey _ | .returnKey _ | .lock _ => True

structure Exclusive (s : PoolState Holder) : Prop where
  disjoint : ∀ holder, (s.reserves holder).nIndex ≠ -1 → (s.reserves holder).nIndex ∉ s.wallet.setKeyPool
  recorded : ∀ nIndex ∈ s.wallet.setKeyPool, ∃ keypool, s.wallet.pool[nIndex]? = some keypool
  keptOnce : s.kept.Nodup

/-- A wallet that was just created or loaded: nothing is reserved, and its pool records have
different keys that the wallet knows. -/
structure Loaded (s : PoolState Holder) : Prop where
  unreserved : ∀ holder, (s.reserves holder).nIndex = -1
  unkept : s.kept = []
  sound : s.wallet.Sound source ∅ []

/-- The states that calls lead to, each of which writes no reserved index. -/
inductive Run (start : PoolState Holder) : PoolState Holder → Prop
  | start : Run start start
  | call {s : PoolState Holder} (call : PoolCall Holder) (run : Run start s) (apart : s.Apart source call) :
      Run start (s.step source call)

variable {source} {s start : PoolState Holder} {holder : Holder} {wallet : CWallet} {kept : List CPubKey}
  {reserve : CReserveKey}

/-- What holds between two calls: no two users hold one index. -/
structure Sound (source : KeySource) (s : PoolState Holder) : Prop where
  wallet : s.wallet.Sound source s.held s.kept
  alone : ∀ {holder other}, (s.reserves holder).nIndex ≠ -1 →
    (s.reserves holder).nIndex = (s.reserves other).nIndex → holder = other

omit [DecidableEq Holder] [ScriptDigests] in
theorem mem_held (given : (s.reserves holder).nIndex ≠ -1) :
    ((s.reserves holder).nIndex, (s.reserves holder).vchPubKey) ∈ s.held :=
  ⟨given, holder, rfl⟩

omit [ScriptDigests] in
theorem held_update :
    held ⟨wallet, Function.update s.reserves holder reserve, kept⟩ ⊆
      insert (reserve.nIndex, reserve.vchPubKey) s.held := by
  rintro ⟨nIndex, key⟩ ⟨given, other, same⟩
  dsimp only at same
  by_cases updated : other = holder
  · subst updated
    rw [Function.update_self] at same
    simp [same]
  · rw [Function.update_of_ne updated] at same
    exact .inr ⟨given, other, same⟩

omit [ScriptDigests] in
theorem held_update_null (empty : reserve.nIndex = -1) :
    held ⟨wallet, Function.update s.reserves holder reserve, kept⟩ ⊆ s.held := by
  rintro ⟨nIndex, key⟩ isHeld
  rcases held_update isHeld with same | isHeld'
  · exact absurd ((Prod.mk.inj same).1.trans empty) isHeld.1
  · exact isHeld'

namespace Sound

omit [DecidableEq Holder] in
theorem exclusive (sound : s.Sound source) : s.Exclusive where
  disjoint := fun holder given member => sound.wallet.apart member (mem_held given)
  recorded := by
    intro nIndex member
    obtain ⟨key, -, found⟩ := sound.wallet.recorded (.inl member)
    exact ⟨_, found⟩
  keptOnce := sound.wallet.keptOnce

theorem update_null (sound : s.Sound source) (empty : reserve.nIndex = -1)
    (next : wallet.Sound source (held ⟨wallet, Function.update s.reserves holder reserve, kept⟩) kept) :
    Sound source ⟨wallet, Function.update s.reserves holder reserve, kept⟩ where
  wallet := next
  alone := by
    intro first second given same
    simp only [Function.update_apply] at given same
    split at given
    · exact absurd empty given
    · split at same
      · contradiction
      · split at same
        · exact absurd (same.trans empty) given
        · exact sound.alone given same

theorem update_reserved (sound : s.Sound source) (notHeld : ∀ key, (reserve.nIndex, key) ∉ s.held)
    (next : wallet.Sound source (held ⟨wallet, Function.update s.reserves holder reserve, kept⟩) kept) :
    Sound source ⟨wallet, Function.update s.reserves holder reserve, kept⟩ where
  wallet := next
  alone := by
    have free : ∀ other, reserve.nIndex ≠ -1 → (s.reserves other).nIndex ≠ reserve.nIndex := by
      intro other given same
      exact notHeld _ (same ▸ mem_held (same ▸ given))
    intro first second given same
    dsimp only at given same
    by_cases updated : first = holder <;> by_cases updated' : second = holder
    · exact updated.trans updated'.symm
    · subst updated
      rw [Function.update_self] at given
      rw [Function.update_self, Function.update_of_ne updated'] at same
      exact absurd same.symm (free second given)
    · subst updated'
      rw [Function.update_of_ne updated] at given
      rw [Function.update_self, Function.update_of_ne updated] at same
      exact absurd same (free first (same ▸ given))
    · rw [Function.update_of_ne updated] at given
      rw [Function.update_of_ne updated, Function.update_of_ne updated'] at same
      exact sound.alone given same

theorem gone (sound : s.Sound source) (given : (s.reserves holder).nIndex ≠ -1) (empty : reserve.nIndex = -1)
    (key : CPubKey) :
    ((s.reserves holder).nIndex, key) ∉ held ⟨wallet, Function.update s.reserves holder reserve, kept⟩ := by
  rintro ⟨-, other, same⟩
  dsimp only at same
  by_cases updated : other = holder
  · subst updated
    rw [Function.update_self] at same
    exact given (by simpa [same] using empty)
  · rw [Function.update_of_ne updated] at same
    exact updated (sound.alone given (by simp [same])).symm

end Sound

theorem getReservedKey_sound (distinct : source.Distinct) (sound : s.Sound source)
    (apart : s.Apart source (.getReservedKey holder)) :
    (s.step source (.getReservedKey holder)).Sound source := by
  simp only [step, CReserveKey.getReservedKey]
  by_cases empty : (s.reserves holder).nIndex = -1
  · have spec := CWallet.reserveKeyFromKeyPool_sound distinct sound.wallet (apart empty)
    simp only [empty, ↓reduceIte]
    generalize s.wallet.reserveKeyFromKeyPool source = reservation at spec
    cases spec with
    | failed next => exact sound.update_null rfl (next.release (held_update_null rfl))
    | @nothing wallet next =>
        dsimp only
        split
        · exact absurd rfl ‹_›
        · split
          · exact sound.update_null rfl (next.release (held_update_null rfl))
          · exact sound.update_null empty (next.release (held_update_null empty))
    | @reserved wallet nIndex key notHeld next =>
        have positive := next.positive (.inr ⟨key, .inl rfl⟩)
        have given : nIndex ≠ -1 := by omega
        simp only [ne_eq, given, not_false_eq_true, ↓reduceIte]
        exact sound.update_reserved notHeld (next.release held_update)
  · simp only [empty, ↓reduceIte]
    split <;> simpa only [Function.update_eq_self] using sound

theorem keepKey_sound (sound : s.Sound source) : (s.step source (.keepKey holder)).Sound source := by
  simp only [step, CReserveKey.keepKey]
  by_cases given : (s.reserves holder).nIndex ≠ -1
  · simp only [given, ne_eq, not_false_eq_true, ↓reduceIte]
    exact sound.update_null rfl
      (CWallet.keepKey_sound sound.wallet (mem_held given) (held_update_null rfl) (sound.gone given rfl))
  · simp only [given, ↓reduceIte]
    exact sound.update_null rfl (sound.wallet.release (held_update_null rfl))

theorem returnKey_sound (sound : s.Sound source) : (s.step source (.returnKey holder)).Sound source := by
  simp only [step, CReserveKey.returnKey]
  by_cases given : (s.reserves holder).nIndex ≠ -1
  · simp only [given, ne_eq, not_false_eq_true, ↓reduceIte]
    exact sound.update_null rfl
      (CWallet.returnKey_sound sound.wallet (mem_held given) (held_update_null rfl) (sound.gone given rfl))
  · simp only [given, ↓reduceIte]
    exact sound.update_null rfl (sound.wallet.release (held_update_null rfl))

theorem getKeyFromPool_sound (distinct : source.Distinct) (sound : s.Sound source) {fAllowReuse : Bool}
    (apart : s.Apart source (.getKeyFromPool fAllowReuse)) :
    (s.step source (.getKeyFromPool fAllowReuse)).Sound source := by
  have handed := CWallet.getKeyFromPool_handed distinct sound.wallet apart fAllowReuse
  unfold step
  dsimp only
  generalize s.wallet.getKeyFromPool source fAllowReuse = out at handed
  cases handed with
  | nothing unhanded next =>
      split
      · exact absurd (congrArg Prod.snd ‹_ = _›) (unhanded _)
      · rename_i same
        exact ⟨(Prod.mk.inj same).1 ▸ next, sound.alone⟩
  | handed next => exact ⟨next, sound.alone⟩

theorem step_sound (distinct : source.Distinct) (sound : s.Sound source) (call : PoolCall Holder)
    (apart : s.Apart source call) : (s.step source call).Sound source := by
  cases call with
  | newKeyPool => exact ⟨CWallet.newKeyPool_sound distinct sound.wallet apart, sound.alone⟩
  | topUpKeyPool => exact ⟨CWallet.topUpKeyPool_sound distinct sound.wallet apart, sound.alone⟩
  | getKeyFromPool fAllowReuse => exact getKeyFromPool_sound distinct sound apart
  | getOldestKeyPoolTime =>
      exact ⟨CWallet.getOldestKeyPoolTime_sound distinct sound.wallet apart, sound.alone⟩
  | getReservedKey holder => exact getReservedKey_sound distinct sound apart
  | keepKey holder => exact keepKey_sound sound
  | returnKey holder => exact returnKey_sound sound
  | lock fLocked =>
      exact ⟨sound.wallet.frame rfl rfl (fun _ known => known) le_rfl, sound.alone⟩

omit [DecidableEq Holder] in
theorem Loaded.start_sound (loaded : start.Loaded source) : start.Sound source where
  wallet := by
    rw [loaded.unkept]
    refine loaded.sound.release ?_
    rintro ⟨nIndex, key⟩ ⟨given, holder, same⟩
    exact absurd (by simpa [same] using loaded.unreserved holder) given
  alone := fun given _ => absurd (loaded.unreserved _) given

theorem Run.sound (distinct : source.Distinct) (loaded : start.Loaded source) (run : Run source start s) :
    s.Sound source := by
  induction run with
  | start => exact loaded.start_sound
  | call call run apart ih => exact step_sound distinct ih call apart

/-- Keys of the pool have one holder in every run in which no call writes a reserved index. -/
theorem keyPool_exclusive (distinct : source.Distinct) (loaded : start.Loaded source)
    (run : Run source start s) : s.Exclusive :=
  (run.sound distinct loaded).exclusive

end PoolState

namespace Sample

/-- A generator of four keys that never fails otherwise. -/
def keySource (nKeypool : Int) : KeySource where
  nKeypool := nKeypool
  generated n := ⟨n < 4, ⟨UInt8.ofNat n :: List.replicate 32 0⟩, true, true, true⟩

/-- A new wallet with two users of reserve keys. -/
def newWallet : PoolState Bool := ⟨⟨∅, ∅, [], .empty, false, true, 0⟩, fun _ => .null, []⟩

def reserveThenTake : PoolState Bool :=
  [.getReservedKey true, .getKeyFromPool false, .keepKey true].foldl (PoolState.step (keySource 1)) newWallet

/-- The second reservation finds the pool empty and fills it from index 1 again. -/
def reserveTwice : PoolState Bool :=
  [.getReservedKey true, .getReservedKey false, .returnKey true, .getKeyFromPool false,
    .keepKey false].foldl (PoolState.step (keySource 0)) newWallet

theorem keySource_distinct (nKeypool : Int) : (keySource nKeypool).Distinct where
  valid := by
    intro n _
    simp [keySource, CPubKey.isValid]
  once := by
    intro n m first second same
    have enumerated : ∀ n < 4, ∀ m < 4, UInt8.ofNat n = UInt8.ofNat m → n = m := by decide
    simp only [keySource, decide_eq_true_eq, CPubKey.mk.injEq, List.cons.injEq] at first second same
    exact enumerated n first m second same.1

theorem newWallet_loaded (nKeypool : Int) : newWallet.Loaded (keySource nKeypool) where
  unreserved := fun _ => rfl
  unkept := rfl
  sound := by
    have unlive : ∀ nIndex, ¬ newWallet.wallet.Live ∅ nIndex := by simp [newWallet, CWallet.Live]
    exact
      { positive := fun isLive => absurd isLive (unlive _)
        apart := fun member => absurd (.inl member) (unlive _)
        holds := fun isHeld => absurd isHeld (Set.notMem_empty _)
        recorded := fun isLive => absurd isLive (unlive _)
        valid := fun records => absurd records.1 (unlive _)
        distinct := fun records => absurd records.1 (unlive _)
        unused := fun records => absurd records.1 (unlive _)
        keptOnce := List.nodup_nil
        later := fun _ _ => ⟨List.not_mem_nil, fun nIndex records => unlive nIndex records.1⟩ }

end Sample

namespace PoolState

open Sample

theorem keyPool_exclusive_sample : reserveThenTake.kept.length = 2 ∧ reserveThenTake.Exclusive := by
  have first : Run (keySource 1) newWallet (newWallet.step (keySource 1) (.getReservedKey true)) := by
    refine .call _ .start fun _ _ k _ _ reserved => ?_
    obtain ⟨key, given, holder, same⟩ := reserved
    exact given (congrArg CReserveKey.nIndex same).symm
  have second := Run.call (.getKeyFromPool false) first (by
    intro _ k inRange _ reserved
    obtain ⟨key, -, holder, same⟩ := reserved
    have one : k < 1 := inRange
    obtain rfl : k = 0 := by omega
    have free : ∀ holder, ((newWallet.step (keySource 1) (.getReservedKey true)).reserves holder).nIndex ≠
        (newWallet.step (keySource 1) (.getReservedKey true)).wallet.nEnd + (0 : Nat) := by
      decide
    exact free holder (congrArg CReserveKey.nIndex same))
  exact ⟨by decide, keyPool_exclusive (keySource_distinct 1) (newWallet_loaded 1)
    (.call (.keepKey true) second trivial)⟩

/-- Without the condition a key is kept twice. -/
theorem keyPool_shared :
    (keySource 0).Distinct ∧ newWallet.Loaded (keySource 0) ∧ ¬ reserveTwice.Exclusive :=
  ⟨keySource_distinct 0, newWallet_loaded 0,
    fun exclusive => absurd exclusive.keptOnce (by decide)⟩

end PoolState

end BitCrystal
