import BitCrystal.ChainCoins
import BitCrystal.FailedBlocks
import BitCrystal.OrphanBlocks

namespace BitCrystal

open Data BlockMap

/-! # The candidates for the best chain -/

theorem BlockMap.SameShape.parent_known {map other : BlockMap} (same : SameShape map other) {hash : UInt256}
    (known : ∃ index, map hash = some index) : ∃ index, other hash = some index := by
  obtain ⟨index, found⟩ := known
  obtain ⟨after, present, _⟩ := same.symm.entry found
  exact ⟨after, present⟩

theorem PathDown.above_stop {map : BlockMap} {start : Option UInt256} {stop : UInt256} {hashes : List UInt256}
    (path : PathDown map start hashes (some stop)) : ∀ hash ∈ hashes, Ancestor map.parent stop hash := by
  induction hashes generalizing start with
  | nil => simp
  | cons head rest ih =>
      obtain ⟨first, index, known, more⟩ := path
      intro hash member
      rcases List.mem_cons.mp member with rfl | later
      · have whole : PathDown map start (hash :: rest) (some stop) := ⟨first, index, known, more⟩
        exact whole.stop_ancestor first
      · exact ih more hash later

theorem PathDown.entry {map : BlockMap} {start stop : Option UInt256} {hashes : List UInt256}
    (path : PathDown map start hashes stop) : ∀ hash ∈ hashes, ∃ index, map hash = some index := by
  induction hashes generalizing start with
  | nil => simp
  | cons head rest ih =>
      obtain ⟨_, index, known, more⟩ := path
      intro hash member
      rcases List.mem_cons.mp member with rfl | later
      · exact ⟨index, known⟩
      · exact ih more hash later

/-- The coin database is written whenever SetBestChain has to. -/
def Surroundings.CoinsWritten (env : Surroundings) : Prop :=
  env.fDiskSpace = true ∧ env.fCoinsWritten = true

namespace ChainState

/-- The entries that can still become the tip are the candidates, and the active chain has
no failed block. -/
structure Candidates (s : ChainState) : Prop where
  linked : s.Linked
  clean : ∀ hash ∈ s.setBlockIndexValid,
    (∃ index, s.mapBlockIndex hash = some index) ∧ ¬s.mapBlockIndex.Failed hash
  complete : ∀ hash index, s.mapBlockIndex hash = some index →
    hash ∈ s.setBlockIndexValid ∨ s.mapBlockIndex.Doomed hash
  tip : ∃ best index, s.pindexBest = some best ∧ s.mapBlockIndex best = some index ∧
    ¬s.mapBlockIndex.Doomed best ∧ s.nBestChainWork = index.nChainWork

variable {s after : ChainState} {hash pindexNew : UInt256} {hashes vAttach : List UInt256}

theorem chainWork_of {index : CBlockIndex} (known : s.mapBlockIndex hash = some index) :
    s.chainWork hash = index.nChainWork := by
  rw [chainWork, known]
  rfl

theorem chainWork_eq (same : SameShape s.mapBlockIndex after.mapBlockIndex) (hash : UInt256) :
    after.chainWork hash = s.chainWork hash := by
  rw [chainWork, chainWork, same.field CBlockIndex.nChainWork fun _ => rfl]

theorem Doomed.of_ancestor {map : BlockMap} {ancestor element : UInt256} (above : Ancestor map.parent ancestor element)
    (doomed : map.Doomed ancestor) : map.Doomed element := by
  obtain ⟨failed, path, marked⟩ := doomed
  exact ⟨failed, path.trans above, marked⟩

theorem SameVerdicts.doomed_iff {map other : BlockMap} (same : SameVerdicts map other) (hash : UInt256) :
    other.Doomed hash ↔ map.Doomed hash := by
  unfold Doomed
  simp only [same.shape.parent_eq, same.failed_iff]

theorem Marks.linked (marks : Marks s after hashes) (linked : s.Linked) : after.Linked := by
  refine ⟨marks.shape.tree linked.tree, ?_, ?_⟩
  · rw [marks.memory.coins, marks.memory.best]
    exact linked.tip
  · rw [marks.memory.best]
    exact linked_of_next marks.shape marks.memory.next linked.next

theorem Marks.doomed (marks : Marks s after hashes) (doomed : s.mapBlockIndex.Doomed hash) :
    after.mapBlockIndex.Doomed hash := by
  obtain ⟨ancestor, path, failed⟩ := doomed
  rw [← marks.shape.parent_eq] at path
  exact ⟨ancestor, path, (marks.failed ancestor).mpr (Or.inl failed)⟩

theorem Candidates.marks (candidates : s.Candidates) (marks : Marks s after hashes)
    (inactive : ∀ hash ∈ hashes, ∀ best, s.pindexBest = some best → ¬Ancestor s.mapBlockIndex.parent hash best) :
    after.Candidates := by
  refine ⟨marks.linked candidates.linked, ?_, ?_, ?_⟩
  · intro hash member
    obtain ⟨before, kept⟩ := marks.mem_valid.mp member
    obtain ⟨known, sound⟩ := candidates.clean hash before
    refine ⟨marks.shape.parent_known known, fun failed => ?_⟩
    cases (marks.failed hash).mp failed with
    | inl already => exact sound already
    | inr marked => exact kept marked
  · intro hash index known
    obtain ⟨before, found, _⟩ := marks.shape.entry known
    cases candidates.complete hash before found with
    | inl valid =>
        by_cases marked : hash ∈ hashes
        · exact Or.inr ⟨hash, .refl hash, (marks.failed hash).mpr (Or.inr marked)⟩
        · exact Or.inl (marks.mem_valid.mpr ⟨valid, marked⟩)
    | inr doomed => exact Or.inr (marks.doomed doomed)
  · obtain ⟨best, index, tip, known, sound, work⟩ := candidates.tip
    obtain ⟨kept, present, equal⟩ := marks.shape.symm.entry known
    refine ⟨best, kept, marks.memory.best.trans tip, present, ?_, ?_⟩
    · rintro ⟨ancestor, path, failed⟩
      rw [marks.shape.parent_eq] at path
      cases (marks.failed ancestor).mp failed with
      | inl already => exact sound ⟨ancestor, path, already⟩
      | inr marked => exact inactive ancestor marked best tip path
    · rw [marks.work, work]
      exact (CBlockIndex.shape_fields equal).2.2.2

/-! ## SetBestChain -/

section

variable [Hashing] [PubKeys] [ScriptMachine] {reorganise : ChainState → Outcome} {env : Surroundings}
  {switch : Switch} {u : Unwinding} {w : Winding}

theorem written_verdicts {stop : Option (Failure × UInt256)} (wound : s.wind env switch u = (w, stop)) :
    SameVerdicts s.mapBlockIndex w.mapBlockIndex := by
  have same : SameVerdicts s.mapBlockIndex (connectTips env s.blockFiles switch.vConnect
      ⟨u.view, [], s.mapBlockIndex, s.undoFiles⟩).1.mapBlockIndex := connectTips_same .verdict _ _
  rw [show connectTips env s.blockFiles switch.vConnect _ = (w, stop) from wound] at same
  exact same

theorem Moved.verdicts (moved : s.Moved env pindexNew switch u w after) :
    SameVerdicts s.mapBlockIndex after.mapBlockIndex := by
  rw [moved.index]
  exact (written_verdicts moved.wound).trans (relink_same (fun _ _ => rfl) switch)

omit [PubKeys] in
theorem moveTip_unhandled {vResurrect vDelete : List CTransaction} {reason : Failure}
    (run : (s.moveTip env pindexNew switch vResurrect vDelete).result = .error reason) : reason.isHandled = false := by
  have unhandled := updateMempool_unhandled ⟨env.settings, relink s.mapBlockIndex switch, s.nBestHeight,
    s.pcoinsTip, false⟩ s.mempool vResurrect vDelete
  unfold moveTip at run
  dsimp only at run
  split at run
  · cases run
    rfl
  · rename_i thrown
    cases run
    exact unhandled.of_error thrown
  · contradiction

theorem setBestChain_tip {done : Unit} (run : (s.setBestChain reorganise env pindexNew).result = .ok done) :
    ∃ index, (s.setBestChain reorganise env pindexNew).state.mapBlockIndex pindexNew = some index ∧
      (s.setBestChain reorganise env pindexNew).state.nBestChainWork = index.nChainWork ∧
      (s.setBestChain reorganise env pindexNew).state.setBlockIndexValid = s.setBlockIndexValid := by
  have moves : ∀ (t : ChainState) (switch : Switch) (vResurrect vDelete : List CTransaction),
      (t.moveTip env pindexNew switch vResurrect vDelete).result = .ok done →
      ∃ index, (t.moveTip env pindexNew switch vResurrect vDelete).state.mapBlockIndex pindexNew = some index ∧
        (t.moveTip env pindexNew switch vResurrect vDelete).state.nBestChainWork = index.nChainWork ∧
        (t.moveTip env pindexNew switch vResurrect vDelete).state.setBlockIndexValid = t.setBlockIndexValid := by
    intro t switch vResurrect vDelete run
    unfold moveTip at run ⊢
    dsimp only at run ⊢
    split at run
    · contradiction
    · contradiction
    · rename_i index pool known updated
      exact ⟨index, known, rfl, rfl⟩
  revert run
  unfold setBestChain
  split
  · exact fun ended => by cases ended
  · split
    · rename_i w reason hash _
      intro run
      unfold connectFailed at run
      split at run
      · unfold Outcome.andThen at run
        split at run <;> simp_all
      · contradiction
    · intro run
      unfold commit at run ⊢
      dsimp only at run ⊢
      split at run
      · split at run
        · contradiction
        · split at run
          · contradiction
          · rename_i writes space coins
            rw [if_pos writes, if_neg space, if_neg coins]
            exact moves _ _ _ _ run
      · rename_i writes
        rw [if_neg writes]
        exact moves _ _ _ _ run

theorem Candidates.moved {done : Unit} (candidates : s.Candidates) (sound : ¬s.mapBlockIndex.Doomed pindexNew)
    (run : (s.setBestChain reorganise env pindexNew).result = .ok done) :
    (s.setBestChain reorganise env pindexNew).state.Candidates := by
  obtain ⟨switch, u, w, moved⟩ := setBestChain_ok run
  obtain ⟨index, known, work, valid⟩ := setBestChain_tip run
  have verdicts := moved.verdicts
  generalize (s.setBestChain reorganise env pindexNew).state = after at moved known work valid verdicts ⊢
  refine ⟨candidates.linked.moved moved, ?_, ?_, pindexNew, index, moved.best, known, ?_, work⟩
  · intro hash member
    rw [valid] at member
    obtain ⟨present, unmarked⟩ := candidates.clean hash member
    exact ⟨verdicts.shape.parent_known present, mt (verdicts.failed_iff hash).mp unmarked⟩
  · intro hash index known
    obtain ⟨before, found, _⟩ := verdicts.shape.entry known
    rw [valid, SameVerdicts.doomed_iff verdicts]
    exact candidates.complete hash before found
  · rwa [SameVerdicts.doomed_iff verdicts]

theorem setBestChain_marks {reason : Failure} (linked : s.Linked) (written : env.CoinsWritten)
    (run : (s.setBestChain reorganise env pindexNew).result = .error reason) (handled : reason.isHandled = true) :
    ∃ hashes, Marks s (s.setBestChain reorganise env pindexNew).state hashes ∧
      ∀ hash ∈ hashes, ∀ best, s.pindexBest = some best → ¬Ancestor s.mapBlockIndex.parent hash best := by
  revert run
  unfold setBestChain
  cases unwound : s.unwind pindexNew with
  | error cause => exact fun _ => ⟨[], .refl s, by simp⟩
  | ok result =>
      obtain ⟨switch, u⟩ := result
      dsimp only
      cases wound : s.wind env switch u with
      | mk w stop =>
          have verdicts := written_verdicts wound
          have settled : Marks s (s.written w) [] := .of_verdicts (written_same s wound) rfl verdicts rfl
          obtain ⟨pfork, plans, _⟩ := unwind_plans linked.tree unwound
          cases stop with
          | some failure =>
              obtain ⟨cause, hash⟩ := failure
              have member := connectTips_failed wound
              obtain ⟨index, known⟩ := plans.connect.entry hash (List.mem_reverse.mpr member)
              obtain ⟨kept, present, _⟩ := verdicts.shape.symm.entry known
              have leaf := (settled.memory.pnext hash).trans (linked.consistent.leaf plans member)
              change (w.mapBlockIndex hash).bind CBlockIndex.pnext = none at leaf
              rw [present, Option.bind_some] at leaf
              have present' : (s.written w).mapBlockIndex hash = some kept := present
              obtain ⟨marked, marks, only⟩ := connectFailed_marks reorganise pindexNew cause present' leaf
              refine fun _ => ⟨[] ++ marked, settled.trans marks, fun other inMarked best tip => ?_⟩
              rw [only other inMarked]
              exact plans.not_active linked.tree member (linked.tip.trans tip)
          | none =>
              intro run
              exfalso
              dsimp only [commit] at run
              simp only [written.1, written.2, Bool.not_true, Bool.false_eq_true, if_false] at run
              split at run
              · rw [moveTip_unhandled run] at handled
                contradiction
              · rw [moveTip_unhandled run] at handled
                contradiction

end

end ChainState

end BitCrystal
