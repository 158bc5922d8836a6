import BitCrystal.WalletCache

namespace BitCrystal

open Data

/-! # Merging the spent flags -/

namespace CWalletTx

variable {wtx : CWalletTx} {vfNewSpent vfSpent : List Bool}

theorem mergeSpent_getElem? (vfNewSpent vfSpent : List Bool) (i : Nat) :
    (mergeSpent vfNewSpent vfSpent).1[i]? = vfSpent[i]?.map fun fSpent => vfNewSpent[i]?.getD false || fSpent := by
  induction vfNewSpent generalizing vfSpent i with
  | nil => simp [mergeSpent]
  | cons fNew rest ih =>
      cases vfSpent with
      | nil => simp [mergeSpent]
      | cons fSpent others =>
          cases i with
          | zero => simp [mergeSpent]
          | succ i => simpa [mergeSpent] using ih others i

def Sets (vfNewSpent vfSpent : List Bool) (i : Nat) : Prop := vfNewSpent[i]? = some true ∧ vfSpent[i]? = some false

theorem mergeSpent_snd (vfNewSpent vfSpent : List Bool) :
    (mergeSpent vfNewSpent vfSpent).2 = true ↔ ∃ i, Sets vfNewSpent vfSpent i := by
  induction vfNewSpent generalizing vfSpent with
  | nil => simp [mergeSpent, Sets]
  | cons fNew rest ih =>
      cases vfSpent with
      | nil => simp [mergeSpent, Sets]
      | cons fSpent others =>
          rw [mergeSpent, Bool.or_eq_true, ih others]
          constructor
          · rintro (here | ⟨i, later⟩)
            · exact ⟨0, by simpa [Sets] using here⟩
            · exact ⟨i + 1, later⟩
          · rintro ⟨i, sets⟩
            cases i with
            | zero => exact .inl (by simpa [Sets] using sets)
            | succ i => exact .inr ⟨i, sets⟩

theorem updateSpent_vfSpent (wtx : CWalletTx) (vfNewSpent : List Bool) :
    (wtx.updateSpent vfNewSpent).1.vfSpent = (mergeSpent vfNewSpent wtx.vfSpent).1 := by
  unfold updateSpent
  dsimp only
  split
  · rfl
  · rename_i none
    exact (mergeSpent_unchanged (Bool.eq_false_iff.mpr none)).symm

theorem updateSpent_snd (wtx : CWalletTx) (vfNewSpent : List Bool) :
    (wtx.updateSpent vfNewSpent).2 = true ↔ ∃ i, Sets vfNewSpent wtx.vfSpent i := by
  rw [← mergeSpent_snd]
  unfold updateSpent
  dsimp only
  split
  · rename_i some
    exact iff_of_true rfl some
  · rename_i none
    exact iff_of_false Bool.false_ne_true none

theorem updateSpent_eq (wtx : CWalletTx) (vfNewSpent : List Bool) :
    (wtx.updateSpent vfNewSpent).1 = { wtx with
      vfSpent := (mergeSpent vfNewSpent wtx.vfSpent).1
      availableCredit := if (wtx.updateSpent vfNewSpent).2 then wtx.availableCredit.clear else wtx.availableCredit } := by
  unfold updateSpent
  dsimp only
  split
  · rfl
  · rename_i none
    rw [mergeSpent_unchanged (Bool.eq_false_iff.mpr none)]
    rfl

theorem updateSpent_isSpent (wtx : CWalletTx) (vfNewSpent : List Bool) (i : Nat) :
    (wtx.updateSpent vfNewSpent).1.isSpent i =
      (wtx.isSpent i || (decide (i < wtx.vfSpent.length) && vfNewSpent[i]?.getD false)) := by
  unfold isSpent
  rw [updateSpent_vfSpent, mergeSpent_getElem?]
  by_cases within : i < wtx.vfSpent.length
  · rw [List.getElem?_eq_getElem within]
    simp [within, Bool.or_comm]
  · simp [within]

/-- The merge is a pointwise or of the flags of the outputs, and the answer says whether it has changed one. -/
structure Merges (wtx : CWalletTx) (vfNewSpent : List Bool) : Prop where
  merged : ∀ (i : Nat) (fNew : Bool), i < wtx.vout.length → vfNewSpent[i]? = some fNew →
    (wtx.updateSpent vfNewSpent).1.isSpent i = (wtx.isSpent i || fNew)
  others : ∀ i, i < wtx.vout.length → vfNewSpent[i]? = none →
    (wtx.updateSpent vfNewSpent).1.isSpent i = wtx.isSpent i
  answer : (wtx.updateSpent vfNewSpent).2 = true ↔
    ∃ i, i < wtx.vout.length ∧ (wtx.updateSpent vfNewSpent).1.isSpent i ≠ wtx.isSpent i

/-- No flag of an output is beyond those that the transaction keeps, and none is set beyond the outputs alone. -/
structure Mergeable (wtx : CWalletTx) (vfNewSpent : List Bool) : Prop where
  kept : ∀ i, i < wtx.vout.length → vfNewSpent[i]? = some true → i < wtx.vfSpent.length
  visible : ∀ i, Sets vfNewSpent wtx.vfSpent i → ∃ j, j < wtx.vout.length ∧ Sets vfNewSpent wtx.vfSpent j

theorem changes_iff (wtx : CWalletTx) (vfNewSpent : List Bool) (i : Nat) :
    (wtx.updateSpent vfNewSpent).1.isSpent i ≠ wtx.isSpent i ↔ Sets vfNewSpent wtx.vfSpent i := by
  rw [updateSpent_isSpent]
  unfold isSpent Sets
  cases old : wtx.vfSpent[i]? with
  | none =>
      have beyond : ¬ i < wtx.vfSpent.length := Nat.not_lt.mpr (List.getElem?_eq_none_iff.mp old)
      simp [beyond]
  | some fSpent =>
      have within := (List.getElem?_eq_some_iff.mp old).1
      cases new : vfNewSpent[i]? with
      | none => simp [within]
      | some fNew => cases fSpent <;> cases fNew <;> simp [within]

theorem merges_iff (wtx : CWalletTx) (vfNewSpent : List Bool) : wtx.Merges vfNewSpent ↔ wtx.Mergeable vfNewSpent := by
  constructor
  · intro merges
    constructor
    · intro i output new
      have merged := merges.merged i true output new
      rw [updateSpent_isSpent, Bool.or_true] at merged
      by_contra beyond
      have absent : wtx.isSpent i = false := by
        unfold isSpent
        rw [List.getElem?_eq_none (by omega)]
        rfl
      simp [absent, beyond] at merged
    · intro i sets
      obtain ⟨j, output, changes⟩ := merges.answer.mp ((updateSpent_snd wtx vfNewSpent).mpr ⟨i, sets⟩)
      exact ⟨j, output, (changes_iff wtx vfNewSpent j).mp changes⟩
  · intro mergeable
    constructor
    · intro i fNew output new
      rw [updateSpent_isSpent, new, Option.getD_some]
      cases fNew with
      | false => rw [Bool.and_false]
      | true => rw [decide_eq_true (mergeable.kept i output new), Bool.true_and]
    · intro i _ none
      rw [updateSpent_isSpent, none, Option.getD_none, Bool.and_false, Bool.or_false]
    · rw [updateSpent_snd]
      simp only [changes_iff]
      exact ⟨fun ⟨i, sets⟩ => mergeable.visible i sets, fun ⟨j, _, sets⟩ => ⟨j, sets⟩⟩

theorem sets_after (vfFirst vfSecond vfSpent : List Bool) (i : Nat) :
    Sets vfSecond (mergeSpent vfFirst vfSpent).1 i ↔ Sets vfSecond vfSpent i ∧ vfFirst[i]? ≠ some true := by
  unfold Sets
  rw [mergeSpent_getElem?]
  cases old : vfSpent[i]? with
  | none => simp
  | some fSpent =>
      cases first : vfFirst[i]? with
      | none => simp
      | some fFirst => cases fFirst <;> simp

theorem updateSpent_idem (wtx : CWalletTx) (vfNewSpent : List Bool) :
    (wtx.updateSpent vfNewSpent).1.updateSpent vfNewSpent = ((wtx.updateSpent vfNewSpent).1, false) := by
  have none : ((wtx.updateSpent vfNewSpent).1.updateSpent vfNewSpent).2 = false := by
    rw [Bool.eq_false_iff, ne_eq, updateSpent_snd, updateSpent_vfSpent]
    rintro ⟨i, sets⟩
    obtain ⟨again, notYet⟩ := (sets_after vfNewSpent vfNewSpent wtx.vfSpent i).mp sets
    exact notYet again.1
  have nothing : ¬ (mergeSpent vfNewSpent (wtx.updateSpent vfNewSpent).1.vfSpent).2 = true := by
    rw [mergeSpent_snd, ← updateSpent_snd, none]
    exact Bool.false_ne_true
  rw [updateSpent]
  exact if_neg nothing

theorem clears_iff (wtx : CWalletTx) (vfFirst vfSecond : List Bool) :
    ((wtx.updateSpent vfFirst).2 || ((wtx.updateSpent vfFirst).1.updateSpent vfSecond).2) = true ↔
      ∃ i, Sets vfFirst wtx.vfSpent i ∨ Sets vfSecond wtx.vfSpent i := by
  rw [Bool.or_eq_true, updateSpent_snd, updateSpent_snd, updateSpent_vfSpent, ← exists_or]
  refine exists_congr fun i => ?_
  rw [sets_after]
  constructor
  · exact Or.imp_right And.left
  · rintro (first | second)
    · exact .inl first
    · by_cases already : vfFirst[i]? = some true
      · exact .inl ⟨already, second.2⟩
      · exact .inr ⟨second, already⟩

theorem updateSpent_comm (wtx : CWalletTx) (vfFirst vfSecond : List Bool) :
    ((wtx.updateSpent vfFirst).1.updateSpent vfSecond).1 = ((wtx.updateSpent vfSecond).1.updateSpent vfFirst).1 := by
  have twice : ∀ first second : List Bool, ((wtx.updateSpent first).1.updateSpent second).1 = { wtx with
      vfSpent := (mergeSpent second (mergeSpent first wtx.vfSpent).1).1
      availableCredit := if ((wtx.updateSpent first).2 || ((wtx.updateSpent first).1.updateSpent second).2) = true
        then wtx.availableCredit.clear else wtx.availableCredit } := by
    intro first second
    have once := updateSpent_eq wtx first
    have again := updateSpent_eq (wtx.updateSpent first).1 second
    rw [updateSpent_vfSpent] at again
    generalize (wtx.updateSpent first).2 = setsFirst at once ⊢
    generalize ((wtx.updateSpent first).1.updateSpent second).2 = setsSecond at again ⊢
    rw [again, once]
    cases setsFirst <;> cases setsSecond <;> rfl
  have flags : (mergeSpent vfSecond (mergeSpent vfFirst wtx.vfSpent).1).1 =
      (mergeSpent vfFirst (mergeSpent vfSecond wtx.vfSpent).1).1 := by
    refine List.ext_getElem? fun i => ?_
    simp only [mergeSpent_getElem?, Option.map_map]
    congr 1
    funext fSpent
    exact Bool.or_left_comm _ _ _
  have cleared : (((wtx.updateSpent vfFirst).2 || ((wtx.updateSpent vfFirst).1.updateSpent vfSecond).2) = true) =
      (((wtx.updateSpent vfSecond).2 || ((wtx.updateSpent vfSecond).1.updateSpent vfFirst).2) = true) := by
    rw [clears_iff, clears_iff]
    exact propext (exists_congr fun i => or_comm)
  rw [twice, twice, flags]
  simp only [cleared]

/-- The merge is a pointwise or exactly where no flag is dropped; merging again changes nothing, and the order of
two merges does not matter. -/
theorem updateSpent_merges_iff (wtx : CWalletTx) (vfNewSpent : List Bool) :
    (wtx.Merges vfNewSpent ↔ wtx.Mergeable vfNewSpent) ∧
      (wtx.updateSpent vfNewSpent).1.updateSpent vfNewSpent = ((wtx.updateSpent vfNewSpent).1, false) ∧
      ∀ vfOther, ((wtx.updateSpent vfNewSpent).1.updateSpent vfOther).1 =
        ((wtx.updateSpent vfOther).1.updateSpent vfNewSpent).1 :=
  ⟨merges_iff wtx vfNewSpent, updateSpent_idem wtx vfNewSpent, updateSpent_comm wtx vfNewSpent⟩

/-- A transaction with an output whose flag has not been needed yet. -/
theorem updateSpent_drops :
    let wtx := CWalletTx.ofTransaction ⟨1, [], [⟨0, []⟩], 0, []⟩
    (wtx.updateSpent [true]).1.isSpent 0 = false ∧ ¬ wtx.Merges [true] := by
  refine ⟨rfl, fun merges => ?_⟩
  have merged := merges.merged 0 true (by decide) rfl
  exact absurd merged (by decide)

end CWalletTx

end BitCrystal
