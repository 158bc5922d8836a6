import BitCrystal.BlockSelection

namespace BitCrystal

open Data BlockMap

/-! # ConnectBestBlock over the runs of a node -/

theorem Outcome.caught_ok {outcome : Outcome} {done : Unit} (run : outcome.caught.result = .ok done) :
    outcome.result = .ok done := by
  unfold Outcome.caught at run
  split at run
  · contradiction
  · exact run

theorem Outcome.caught_error {outcome : Outcome} {reason : Failure} (run : outcome.caught.result = .error reason)
    (returns : reason.returnsFalse = true) : ∃ cause, outcome.result = .error cause ∧ cause.isHandled = true := by
  unfold Outcome.caught at run
  split at run
  · rename_i what thrown
    exact ⟨_, thrown, rfl⟩
  · refine ⟨reason, run, ?_⟩
    cases reason <;> first | rfl | contradiction

namespace ChainState

variable {s : ChainState} {top best : UInt256} {vAttach attached : List UInt256} {room : Nat}

/-! ## The choice of the candidate -/

theorem workBefore_le {pa pb : UInt256} (before : s.workBefore pa pb = true) : s.chainWork pa ≤ s.chainWork pb := by
  unfold workBefore at before
  split at before
  · contradiction
  · rename_i less
    exact BitVec.not_lt.mp less

theorem le_of_not_workBefore {pa pb : UInt256} (before : s.workBefore pa pb = false) :
    s.chainWork pb ≤ s.chainWork pa := by
  unfold workBefore at before
  split at before
  · rename_i less
    exact BitVec.le_of_lt less
  · split at before
    · contradiction
    · rename_i less
      exact BitVec.not_lt.mp less

theorem lastValid_max (s : ChainState) : (s.lastValid = none → s.setBlockIndexValid = []) ∧
    ∀ last, s.lastValid = some last → last ∈ s.setBlockIndexValid ∧
      ∀ hash ∈ s.setBlockIndexValid, s.chainWork hash ≤ s.chainWork last := by
  obtain ⟨step, same, first, next⟩ : ∃ step : Option UInt256 → UInt256 → Option UInt256,
      s.lastValid = s.setBlockIndexValid.foldl step none ∧ (∀ hash, step none hash = some hash) ∧
        ∀ last hash, step (some last) hash = if s.workBefore last hash then some hash else some last :=
    ⟨_, rfl, fun _ => rfl, fun _ _ => rfl⟩
  have loop : ∀ (hashes : List UInt256) (start : UInt256), ∃ last, hashes.foldl step (some start) = some last ∧
      (last = start ∨ last ∈ hashes) ∧ s.chainWork start ≤ s.chainWork last ∧
        ∀ hash ∈ hashes, s.chainWork hash ≤ s.chainWork last := by
    intro hashes
    induction hashes with
    | nil => exact fun start => ⟨start, rfl, Or.inl rfl, BitVec.le_refl _, by simp⟩
    | cons head rest ih =>
        intro start
        rw [List.foldl_cons, next]
        cases before : s.workBefore start head with
        | true =>
            obtain ⟨last, found, member, low, most⟩ := ih head
            refine ⟨last, found, Or.inr (List.mem_cons.mpr member), BitVec.le_trans (workBefore_le before) low, ?_⟩
            intro hash inList
            rcases List.mem_cons.mp inList with rfl | later
            · exact low
            · exact most hash later
        | false =>
            obtain ⟨last, found, member, low, most⟩ := ih start
            refine ⟨last, found, member.imp_right (List.mem_cons_of_mem head), low, ?_⟩
            intro hash inList
            rcases List.mem_cons.mp inList with rfl | later
            · exact BitVec.le_trans (le_of_not_workBefore before) low
            · exact most hash later
  rw [same]
  cases s.setBlockIndexValid with
  | nil => exact ⟨fun _ => rfl, fun _ found => by cases found⟩
  | cons head rest =>
      obtain ⟨last, found, member, low, most⟩ := loop rest head
      rw [List.foldl_cons, first, found]
      refine ⟨fun missing => (by cases missing), fun other equal => ?_⟩
      cases equal
      refine ⟨List.mem_cons.mpr member, fun hash inList => ?_⟩
      rcases List.mem_cons.mp inList with rfl | later
      · exact low
      · exact most hash later

/-! ## The walk down -/

theorem checkAncestry_failed {failed : UInt256} (run : s.checkAncestry room top vAttach = .ok (.inl failed)) :
    Ancestor s.mapBlockIndex.parent failed top ∧ s.mapBlockIndex.Failed failed := by
  induction room generalizing top vAttach with
  | zero => contradiction
  | succ room ih =>
      simp only [checkAncestry, bind_eq_ok, expect_eq_ok] at run
      obtain ⟨index, known, run⟩ := run
      split at run
      · rename_i marked
        cases run
        exact ⟨.refl _, index, known, marked⟩
      · split at run
        · cases run
        · rename_i pprev up
          split at run
          · cases run
          · obtain ⟨path, marked⟩ := ih run
            exact ⟨path.trans (.of_parent ((parent_of known).trans up)), marked⟩

theorem checkAncestry_attach (candidates : s.Candidates) (tip : s.pindexBest = some best)
    (run : s.checkAncestry room top vAttach = .ok (.inr attached)) :
    ¬s.mapBlockIndex.Doomed top ∧ ∃ lower, attached = lower ++ vAttach ∧
      (∀ hash ∈ lower, Ancestor s.mapBlockIndex.parent hash top ∧ s.chainWork best < s.chainWork hash) ∧
      (s.chainWork best < s.chainWork top → lower.getLast? = some top) := by
  induction room generalizing top vAttach with
  | zero => contradiction
  | succ room ih =>
      simp only [checkAncestry, bind_eq_ok, expect_eq_ok] at run
      obtain ⟨index, known, run⟩ := run
      rw [tip, Option.all_some, ← chainWork_of known] at run
      split at run
      · cases run
      · rename_i unmarked
        have sound : ¬s.mapBlockIndex.Failed top := by
          rintro ⟨other, found, marked⟩
          rw [known] at found
          cases found
          exact unmarked marked
        -- the entry itself, if it has more work than the tip
        have own : ∃ lower, (if decide (s.chainWork best < s.chainWork top) = true then top :: vAttach else vAttach) =
            lower ++ vAttach ∧ (∀ hash ∈ lower, hash = top ∧ s.chainWork best < s.chainWork hash) ∧
            (s.chainWork best < s.chainWork top → lower = [top]) := by
          by_cases more : s.chainWork best < s.chainWork top
          · refine ⟨[top], if_pos (decide_eq_true more), fun hash member => ?_, fun _ => rfl⟩
            rw [List.mem_singleton.mp member]
            exact ⟨rfl, more⟩
          · exact ⟨[], if_neg (by simpa using more), by simp, fun less => absurd less more⟩
        obtain ⟨mine, eq, onlyMine, last⟩ := own
        rw [eq] at run
        have stops : attached = mine ++ vAttach → ¬s.mapBlockIndex.Doomed top →
            ¬s.mapBlockIndex.Doomed top ∧ ∃ lower, attached = lower ++ vAttach ∧
              (∀ hash ∈ lower, Ancestor s.mapBlockIndex.parent hash top ∧ s.chainWork best < s.chainWork hash) ∧
              (s.chainWork best < s.chainWork top → lower.getLast? = some top) := by
          intro same undoomed
          refine ⟨undoomed, mine, same, fun hash member => ?_, fun more => by rw [last more]; rfl⟩
          obtain ⟨rfl, more⟩ := onlyMine hash member
          exact ⟨.refl _, more⟩
        split at run
        · rename_i root
          cases run
          refine stops rfl ?_
          rintro ⟨ancestor, path, marked⟩
          rw [path.eq_of_root ((parent_of known).trans root)] at marked
          exact sound marked
        · rename_i pprev up
          split at run
          · rename_i next
            cases run
            refine stops rfl ?_
            obtain ⟨other, tip', active⟩ := candidates.linked.consistent.next top index known next
            obtain ⟨_, _, tip'', _, undoomed, _⟩ := candidates.tip
            rw [tip''] at tip'
            cases tip'
            exact mt (Doomed.of_ancestor active) undoomed
          · obtain ⟨undoomed, lower, rfl, higher, _⟩ := ih run
            have step : Ancestor s.mapBlockIndex.parent pprev top := .of_parent ((parent_of known).trans up)
            refine ⟨?_, lower ++ mine, by rw [List.append_assoc], ?_, fun more => by simp [last more]⟩
            · rintro ⟨ancestor, path, marked⟩
              cases path.cases_parent with
              | inl same => exact sound (same ▸ marked)
              | inr further =>
                  obtain ⟨above, up', rest⟩ := further
                  rw [(parent_of known).trans up] at up'
                  cases up'
                  exact undoomed ⟨ancestor, rest, marked⟩
            · intro hash member
              cases List.mem_append.mp member with
              | inl lowerMember =>
                  obtain ⟨path, more⟩ := higher hash lowerMember
                  exact ⟨path.trans step, more⟩
              | inr mineMember =>
                  obtain ⟨rfl, more⟩ := onlyMine hash mineMember
                  exact ⟨.refl _, more⟩

theorem checkAncestry_unhandled (s : ChainState) (room : Nat) (top : UInt256) (vAttach : List UInt256) :
    Unhandled (s.checkAncestry room top vAttach) := by
  induction room generalizing top vAttach with
  | zero => rfl
  | succ room ih =>
      unfold checkAncestry
      refine Sat.bind (Sat.expect rfl) fun index _ => ?_
      split
      · exact trivial
      · dsimp only
        split
        · exact trivial
        · split
          · exact trivial
          · exact ih _ _

theorem entriesDown_unhandled (map : BlockMap) (stop start : Option UInt256) (room : Nat) :
    Unhandled (entriesDown map stop room start) := by
  induction room generalizing start with
  | zero => rfl
  | succ room ih =>
      unfold entriesDown
      refine Sat.ite (fun _ => trivial) fun _ => ?_
      refine Sat.bind (Sat.expect rfl) fun hash _ => ?_
      refine Sat.bind (Sat.expect rfl) fun index _ => ?_
      exact (ih _).bind fun _ _ => trivial

/-- The tip has as much work as any block that has not failed, nor an ancestor of it. -/
def Maximal (s : ChainState) : Prop :=
  ∀ hash index, s.mapBlockIndex hash = some index → ¬s.mapBlockIndex.Doomed hash →
    index.nChainWork ≤ s.nBestChainWork

theorem Candidates.maximal (candidates : s.Candidates) {last : UInt256} (found : s.lastValid = some last)
    (most : s.chainWork last ≤ s.nBestChainWork) : s.Maximal := by
  intro hash index known undoomed
  cases candidates.complete hash index known with
  | inr doomed => exact absurd doomed undoomed
  | inl valid =>
      rw [← chainWork_of known]
      exact BitVec.le_trans ((lastValid_max s).2 last found |>.2 hash valid) most

/-- The walk from the last candidate meets a failed block: those above it leave the candidates. -/
theorem Candidates.dropFailed (candidates : s.Candidates) {failed last : UInt256} {hashes : List UInt256}
    (walk : s.checkAncestry room last [] = .ok (.inl failed)) {room' : Nat}
    (down : entriesDown s.mapBlockIndex (some failed) room' (some last) = .ok hashes) :
    Marks s ((hashes.foldl markFailedChild s).invalidChainFound last).state hashes ∧
      ((hashes.foldl markFailedChild s).invalidChainFound last).state.Candidates := by
  obtain ⟨_, marked⟩ := checkAncestry_failed walk
  have path := entriesDown_path down
  have children := markFailedChildren_marks path.entry
  have marks := children.trans (invalidChainFound_marks (hashes.foldl markFailedChild s) last)
  rw [List.append_nil] at marks
  refine ⟨marks, candidates.marks marks fun hash member best tip active => ?_⟩
  obtain ⟨_, _, tip', _, undoomed, _⟩ := candidates.tip
  rw [tip] at tip'
  cases tip'
  exact undoomed ⟨failed, (path.above_stop hash member).trans active, marked⟩

section

variable [Hashing] [PubKeys] [ScriptMachine]

/-! ## One call of ConnectBestBlock -/

/-- What a call of ConnectBestBlock keeps that comes back. -/
structure Advanced (s after : ChainState) : Prop where
  candidates : after.Candidates
  work : s.nBestChainWork ≤ after.nBestChainWork

variable {reorganise : ChainState → Outcome}

theorem Candidates.setBestChain {env : Surroundings} {pindexNew : UInt256} (candidates : s.Candidates)
    (written : env.CoinsWritten) (sound : ¬s.mapBlockIndex.Doomed pindexNew)
    (returns : Returns (s.setBestChain reorganise env pindexNew).caught.result) :
    (s.setBestChain reorganise env pindexNew).state.Candidates := by
  cases verdict : (s.setBestChain reorganise env pindexNew).caught.result with
  | ok done => exact candidates.moved sound (Outcome.caught_ok verdict)
  | error reason =>
      obtain ⟨cause, failed, handled⟩ := Outcome.caught_error verdict (returns.of_error verdict)
      obtain ⟨hashes, marks, inactive⟩ := setBestChain_marks candidates.linked written failed handled
      exact candidates.marks marks inactive

theorem attach_advances {env : UInt256 → Surroundings} (written : ∀ hash, (env hash).CoinsWritten) {bound : UInt256}
    (candidates : s.Candidates) (sound : ∀ hash ∈ vAttach, ¬s.mapBlockIndex.Doomed hash)
    (low : bound ≤ s.nBestChainWork) (more : ∀ hash ∈ vAttach, bound ≤ s.chainWork hash)
    (returns : Returns (s.attach reorganise env vAttach).result) :
    (s.attach reorganise env vAttach).state.Candidates ∧ bound ≤ (s.attach reorganise env vAttach).state.nBestChainWork ∧
      ((s.attach reorganise env vAttach).result = .ok () →
        SameVerdicts s.mapBlockIndex (s.attach reorganise env vAttach).state.mapBlockIndex ∧
        (s.attach reorganise env vAttach).state.setBlockIndexValid = s.setBlockIndexValid ∧
        (s.attach reorganise env vAttach).state.pindexBest = vAttach.getLast?.or s.pindexBest) := by
  induction vAttach generalizing s with
  | nil => exact ⟨candidates, low, fun _ => ⟨.refl _, rfl, rfl⟩⟩
  | cons head rest ih =>
      have unmarked := sound head List.mem_cons_self
      unfold attach Outcome.andThen at returns ⊢
      cases verdict : (s.setBestChain reorganise (env head) head).caught.result with
      | error reason =>
          simp only [verdict] at returns ⊢
          have back : Returns (s.setBestChain reorganise (env head) head).caught.result := by rwa [verdict]
          obtain ⟨cause, failed, handled⟩ := Outcome.caught_error verdict returns
          obtain ⟨hashes, marks, _⟩ := setBestChain_marks candidates.linked (written head) failed handled
          rw [Outcome.caught_state]
          refine ⟨candidates.setBestChain (written head) unmarked back, ?_, fun ended => by cases ended⟩
          rw [marks.work]
          exact low
      | ok done =>
          simp only [verdict] at returns ⊢
          have run := Outcome.caught_ok verdict
          obtain ⟨switch, u, w, moved⟩ := setBestChain_ok run
          obtain ⟨index, known, work, valid⟩ := setBestChain_tip run
          have next := candidates.moved unmarked run
          rw [Outcome.caught_state] at returns ⊢
          generalize (s.setBestChain reorganise (env head) head).state = between at moved known work valid next returns ⊢
          have verdicts := moved.verdicts
          obtain ⟨kept, higher, last⟩ := ih next
            (fun hash member => by
              rw [SameVerdicts.doomed_iff verdicts]
              exact sound hash (List.mem_cons_of_mem head member))
            (by
              rw [work, ← chainWork_of known, chainWork_eq verdicts.shape]
              exact more head List.mem_cons_self)
            (fun hash member => by
              rw [chainWork_eq verdicts.shape]
              exact more hash (List.mem_cons_of_mem head member))
            returns
          refine ⟨kept, higher, fun ended => ?_⟩
          obtain ⟨same, also, best⟩ := last ended
          refine ⟨verdicts.trans same, also.trans valid, ?_⟩
          rw [best, moved.best, List.getLast?_cons]
          cases rest.getLast? <;> rfl

theorem connectBestBlock_advances {env : Nat → UInt256 → Surroundings}
    (written : ∀ turn hash, (env turn hash).CoinsWritten) (candidates : s.Candidates)
    (returns : Returns (connectBestBlock env room s).result) :
    Advanced s (connectBestBlock env room s).state ∧
      ((connectBestBlock env room s).result = .ok () → (connectBestBlock env room s).state.Maximal) := by
  induction room generalizing s with
  | zero => contradiction
  | succ room ih =>
      obtain ⟨best, index, tip, known, undoomed, work⟩ := candidates.tip
      have tipWork : s.nBestChainWork = s.chainWork best := by rw [work, chainWork_of known]
      unfold connectBestBlock at returns ⊢
      cases chosen : s.lastValid with
      | none =>
          refine ⟨⟨candidates, BitVec.le_refl _⟩, fun _ hash other present sound => ?_⟩
          cases candidates.complete hash other present with
          | inl valid =>
              rw [(lastValid_max s).1 chosen] at valid
              contradiction
          | inr doomed => exact absurd doomed sound
      | some last =>
          simp only [chosen, tip] at returns ⊢
          obtain ⟨member, most⟩ := (lastValid_max s).2 last chosen
          split
          · rename_i nothing
            refine ⟨⟨candidates, BitVec.le_refl _⟩, fun _ => candidates.maximal chosen ?_⟩
            rw [tipWork]
            rcases nothing with same | equal
            · cases same
              exact BitVec.le_refl _
            · simp only [Option.any_some, decide_eq_true_eq] at equal
              rw [equal]
              exact BitVec.le_refl _
          · rename_i other
            rw [if_neg other] at returns
            -- the tip is a candidate, so the last one has more work
            have higher : s.chainWork best < s.chainWork last := by
              have valid := (candidates.complete best index known).resolve_right undoomed
              refine BitVec.lt_of_le_ne (most best valid) fun equal => other (Or.inr ?_)
              simp [equal]
            cases walk : s.checkAncestry (heightRoom s.mapBlockIndex last) last [] with
            | error reason =>
                simp only [walk] at returns
                have stops := (checkAncestry_unhandled s _ last []).stops.of_error walk
                rw [show reason.returnsFalse = true from returns] at stops
                contradiction
            | ok outcome =>
                cases outcome with
                | inr vAttach =>
                    simp only [walk] at returns ⊢
                    obtain ⟨sound, lower, rfl, above, ends⟩ := checkAncestry_attach candidates tip walk
                    rw [List.append_nil] at returns ⊢
                    obtain ⟨kept, more, done⟩ := attach_advances (written room) candidates
                      (fun hash inList => mt (Doomed.of_ancestor (above hash inList).1) sound)
                      (BitVec.le_refl s.nBestChainWork)
                      (fun hash inList => by
                        rw [tipWork]
                        exact BitVec.le_of_lt (above hash inList).2)
                      returns
                    refine ⟨⟨kept, more⟩, fun ended hash other' present undoomed' => ?_⟩
                    obtain ⟨verdicts, valid, tipNow⟩ := done ended
                    rw [ends higher] at tipNow
                    obtain ⟨now, entry, tipNow', present', _, workNow⟩ := kept.tip
                    rw [tipNow] at tipNow'
                    cases tipNow'
                    obtain ⟨before, found, equal⟩ := verdicts.shape.entry present
                    have inValid := (candidates.complete hash before found).resolve_right
                      (mt (SameVerdicts.doomed_iff verdicts hash).mpr undoomed')
                    have atMost := most hash inValid
                    rw [workNow, ← chainWork_of present', ← chainWork_of present, chainWork_eq verdicts.shape,
                      chainWork_eq verdicts.shape]
                    exact atMost
                | inl failed =>
                    simp only [walk] at returns ⊢
                    cases down : entriesDown s.mapBlockIndex (some failed) (heightRoom s.mapBlockIndex last + 1)
                        (some last) with
                    | error reason =>
                        simp only [down] at returns
                        have stops := (entriesDown_unhandled _ _ _ _).stops.of_error down
                        rw [show reason.returnsFalse = true from returns] at stops
                        contradiction
                    | ok hashes =>
                        simp only [down] at returns ⊢
                        obtain ⟨marks, kept⟩ := candidates.dropFailed walk down
                        unfold Outcome.andThen at returns ⊢
                        cases verdict : ((hashes.foldl markFailedChild s).invalidChainFound last).result with
                        | error reason =>
                            simp only [verdict] at returns ⊢
                            exact ⟨⟨kept, marks.work ▸ BitVec.le_refl _⟩, fun ended => by cases ended⟩
                        | ok done =>
                            simp only [verdict] at returns ⊢
                            obtain ⟨⟨last', more⟩, maximal⟩ := ih kept returns
                            exact ⟨⟨last', marks.work ▸ more⟩, maximal⟩

omit [Hashing] [PubKeys] [ScriptMachine] in
theorem invalidChainFound_result (s : ChainState) (pindexNew : UInt256) :
    Sat (s.invalidChainFound pindexNew).result (fun _ => True) (· = .undefined "InvalidChainFound") := by
  unfold invalidChainFound
  dsimp only
  split
  · rfl
  · trivial

theorem connectBestBlock_throws_nothing (env : Nat → UInt256 → Surroundings) (room : Nat) (s : ChainState)
    (what : String) : (connectBestBlock env room s).result ≠ .error (.exception what) := by
  have attached (reorganise : ChainState → Outcome) (env : UInt256 → Surroundings) (vAttach : List UInt256)
      (s : ChainState) : (s.attach reorganise env vAttach).result ≠ .error (.exception what) := by
    induction vAttach generalizing s with
    | nil => exact fun thrown => by cases thrown
    | cons head rest ih =>
        unfold attach Outcome.andThen
        split
        · unfold Outcome.caught
          split
          · exact fun thrown => by cases thrown
          · rename_i others
            exact others what
        · exact ih _
  have unhandled {α : Type} {computation : Except Failure α} {reason : Failure} (never : Unhandled computation)
      (run : computation = .error reason) : reason ≠ .exception what := by
    rintro rfl
    have handled := never.of_error run
    contradiction
  induction room generalizing s with
  | zero => exact fun thrown => by cases thrown
  | succ room ih =>
      unfold connectBestBlock
      split
      · exact fun thrown => by cases thrown
      · split
        · exact fun thrown => by cases thrown
        · split
          · rename_i reason walk
            exact fun thrown => unhandled (checkAncestry_unhandled _ _ _ _) walk (Except.error.inj thrown)
          · exact attached _ _ _ _
          · split
            · rename_i reason down
              exact fun thrown => unhandled (entriesDown_unhandled _ _ _ _) down (Except.error.inj thrown)
            · unfold Outcome.andThen
              split
              · rename_i reason failed
                rw [failed]
                intro thrown
                have expected := (invalidChainFound_result _ _).of_error (failed.trans thrown)
                contradiction
              · exact ih _

/-! ## The turns of ConnectBestBlock -/

end

end ChainState

end BitCrystal
