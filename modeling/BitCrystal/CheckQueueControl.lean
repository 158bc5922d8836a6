import BitCrystal.CheckQueueRuns

namespace BitCrystal

open Data

/-! # The master's use of the check queue

CCheckQueueControl adds batches of checks and then waits for all of them, while the
workers take their turns in between. -/

namespace CheckSystem

variable {nWorkers : Nat} {T : Type} {check : T → Bool} {system mid next last : CheckSystem nWorkers T}
  {batches : List (List T)} {fRet : Bool}

def ByWorker : CheckAction nWorkers T → Prop
  | .critical (.worker _) | .check (.worker _) => True
  | _ => False

/-- The master is not inside Loop. -/
def Outside (system : CheckSystem nWorkers T) : Prop :=
  system.position .master = .outside ∨ ∃ fRet, system.position .master = .returned fRet

/-- The master adds these batches, one after the other. -/
inductive Adds (check : T → Bool) :
    CheckSystem nWorkers T → List (List T) → CheckSystem nWorkers T → Prop
  | done {system : CheckSystem nWorkers T} : Adds check system [] system
  | worker {system next last : CheckSystem nWorkers T} {batches : List (List T)}
      {action : CheckAction nWorkers T} (byWorker : ByWorker action)
      (step : system.step check action = some next) (rest : Adds check next batches last) :
      Adds check system batches last
  | add {system next last : CheckSystem nWorkers T} {vChecks : List T} {batches : List (List T)}
      (step : system.step check (.add vChecks) = some next) (rest : Adds check next batches last) :
      Adds check system (vChecks :: batches) last

/-- The master is in Wait until it returns. -/
inductive Waits (check : T → Bool) : CheckSystem nWorkers T → Bool → CheckSystem nWorkers T → Prop
  | returns {system last : CheckSystem nWorkers T} {fRet : Bool}
      (step : system.step check (.critical .master) = some last)
      (returned : last.position .master = .returned fRet) : Waits check system fRet last
  | turn {system next last : CheckSystem nWorkers T} {fRet : Bool} {action : CheckAction nWorkers T}
      (noAdd : ∀ vChecks, action ≠ .add vChecks)
      (stays : action = .critical .master → ∀ fRet, next.position .master ≠ .returned fRet)
      (step : system.step check action = some next) (rest : Waits check next fRet last) :
      Waits check system fRet last

/-- The life of one CCheckQueueControl: the batches it adds, and what Wait returns. -/
def Controls (check : T → Bool) (system : CheckSystem nWorkers T) (batches : List (List T)) (fRet : Bool)
    (last : CheckSystem nWorkers T) : Prop :=
  ∃ mid, Adds check system batches mid ∧ Waits check mid fRet last

/-- Between two blocks: nothing is added and the master is not in Loop. -/
structure Unused (check : T → Bool) (system : CheckSystem nWorkers T) : Prop where
  reachable : Reachable check system
  outside : system.Outside
  none : system.added = []

theorem step_added {action : CheckAction nWorkers T} (reachable : Reachable check system)
    (noAdd : ∀ vChecks, action ≠ .add vChecks)
    (stays : action = .critical .master → ∀ fRet, next.position .master ≠ .returned fRet)
    (step : system.step check action = some next) : next.added = system.added := by
  cases action with
  | add vChecks => exact absurd rfl (noAdd vChecks)
  | check thread =>
      simp only [CheckSystem.step] at step
      split at step
      · cases step
        rfl
      · cases step
  | critical thread =>
      simp only [CheckSystem.step, Option.map_eq_some_iff] at step
      obtain ⟨locked, taken, rfl⟩ := step
      obtain ⟨inv, shared, rfl⟩ := reachable.inv.1.lock taken
      rcases unlock_cases thread inv.fQuit with ⟨rfl, -, result, -⟩ | ⟨-, -, result⟩ | ⟨-, result⟩
      · exact absurd (by rw [result]; simp [place]) (stays rfl shared.fAllOk)
      · rw [result]
        rfl
      · rw [result]
        rfl

theorem step_by_worker {action : CheckAction nWorkers T} (reachable : Reachable check system)
    (byWorker : ByWorker action) (step : system.step check action = some next) :
    next.added = system.added ∧ next.position .master = system.position .master := by
  have noAdd : ∀ vChecks, action ≠ .add vChecks := by
    rintro vChecks rfl
    exact byWorker
  have notMaster : action ≠ .critical .master := by
    rintro rfl
    exact byWorker
  refine ⟨step_added reachable noAdd (fun same => absurd same notMaster) step, ?_⟩
  cases action with
  | add vChecks => exact absurd rfl (noAdd vChecks)
  | check thread =>
      cases thread with
      | master => exact byWorker.elim
      | worker i =>
          simp only [CheckSystem.step] at step
          split at step
          · cases step
            simp
          · cases step
  | critical thread =>
      cases thread with
      | master => exact absurd rfl notMaster
      | worker i =>
          simp only [CheckSystem.step, Option.map_eq_some_iff] at step
          obtain ⟨locked, taken, rfl⟩ := step
          obtain ⟨inv, shared, rfl⟩ := reachable.inv.1.lock taken
          rcases unlock_cases (.worker i) inv.fQuit with ⟨same, -⟩ | ⟨-, -, result⟩ | ⟨-, result⟩
          · cases same
          · rw [result]
            simp [place]
          · rw [result]
            simp [place]

theorem Adds.reachable (adds : Adds check system batches last) (reachable : Reachable check system)
    (few : system.added.length + batches.flatten.length < 2 ^ 32) :
    Reachable check last ∧ last.added = system.added ++ batches.flatten := by
  induction adds with
  | done => exact ⟨reachable, by simp⟩
  | worker byWorker step rest ih =>
      obtain ⟨added, -⟩ := step_by_worker reachable byWorker step
      rw [← added] at few ⊢
      exact ih (reachable.step step (by omega)) few
  | @add system next last vChecks batches step rest ih =>
      have added : next.added = system.added ++ vChecks := by
        simp only [CheckSystem.step] at step
        split at step <;> cases step <;> rfl
      simp only [List.flatten_cons, List.length_append] at few
      have length : next.added.length = system.added.length + vChecks.length := by
        rw [added, List.length_append]
      obtain ⟨reached, all⟩ := ih (reachable.step step (by omega)) (by omega)
      exact ⟨reached, by simp [all, added]⟩

theorem Waits.verdict (waits : Waits check system fRet last) (reachable : Reachable check system) :
    (fRet = true ↔ ∀ c ∈ system.added, check c = true) ∧ last.Unused check := by
  induction waits with
  | returns step returned =>
      obtain ⟨verdict, -, -, -, -, -, none⟩ := reachable.wait step returned
      exact ⟨verdict, reachable.step step (by simp [none]), .inr ⟨_, returned⟩, none⟩
  | turn noAdd stays step rest ih =>
      have added := step_added reachable noAdd stays step
      rw [← added]
      exact ih (reachable.step step (added ▸ reachable.inv.2.2))

theorem Controls.verdict (controls : Controls check system batches fRet last) (unused : system.Unused check)
    (few : batches.flatten.length < 2 ^ 32) :
    (fRet = true ↔ ∀ c ∈ batches.flatten, check c = true) ∧ last.Unused check := by
  obtain ⟨mid, adds, waits⟩ := controls
  obtain ⟨reachable, added⟩ := adds.reachable unused.reachable (by simpa [unused.none] using few)
  have verdict := waits.verdict reachable
  rwa [added, unused.none, List.nil_append] at verdict

/-! ## Wait returns -/

/-- A bound on the turns that a thread is still going to make. -/
def debtOf : Position T → Nat
  | .working _ vChecks _ => 2 * vChecks.length + 1
  | _ => 0

def debt (system : CheckSystem nWorkers T) : Nat :=
  4 * system.shared.queue.length + ∑ t, debtOf (system.position t)

theorem critical_debt {thread : Thread nWorkers} (reachable : Reachable check system)
    (step : system.step check (.critical thread) = some next) :
    (thread = .master ∧ ∃ fRet, next.position .master = .returned fRet) ∨
      (∀ fRet, next.position .master = .returned fRet → thread ≠ .master) ∧
        next.debt + debtOf (system.position thread) ≤ system.debt ∧
        (system.shared.queue ≠ [] → next.debt < system.debt) := by
  simp only [CheckSystem.step, Option.map_eq_some_iff] at step
  obtain ⟨locked, taken, rfl⟩ := step
  have inv := (reachable.inv.1.lock taken).1
  obtain ⟨shared, rfl, how⟩ := lock_cases taken
  have queue : shared.queue = system.shared.queue := by
    rcases how with ⟨-, rfl⟩ | ⟨-, rfl⟩ | ⟨nNow, fOk, -, rfl⟩
    · rfl
    · rfl
    · unfold CCheckQueue.cleanUp
      split <;> rfl
  rcases unlock_cases thread inv.fQuit with ⟨rfl, -, result, -⟩ | ⟨empty, -, result⟩ | ⟨some, result⟩
  · refine .inl ⟨rfl, shared.fAllOk, ?_⟩
    rw [result]
    simp [place]
  · right
    have sums := sum_update system.position debtOf thread .waiting
    have waiting : debtOf (.waiting : Position T) = 0 := rfl
    rw [result]
    refine ⟨?_, ?_, fun some => absurd (queue.symm.trans empty) some⟩
    · rintro fRet returned rfl
      simp [place] at returned
    · simp only [debt, place, Function.update_idem, queue]
      omega
  · right
    have bounds : 1 ≤ shared.batch.toNat ∧ shared.batch.toNat ≤ shared.queue.length :=
      CCheckQueue.batch_bounds some
    have sums := sum_update system.position debtOf thread
      (.working shared.batch (shared.queue.take shared.batch.toNat) shared.fAllOk)
    have owed : debtOf (.working shared.batch (shared.queue.take shared.batch.toNat) shared.fAllOk) =
        2 * shared.batch.toNat + 1 := by
      simp only [debtOf, List.length_take, Nat.min_eq_left bounds.2]
    have lengths := congrArg List.length queue
    have kept : debt { system.place thread { shared with queue := shared.queue.drop shared.batch.toNat }
          (.working shared.batch (shared.queue.take shared.batch.toNat) shared.fAllOk) with
        handed := system.handed ++ (shared.queue.take shared.batch.toNat).map (thread, ·) } +
          debtOf (system.position thread) + 2 * shared.batch.toNat = system.debt + 1 := by
      simp only [debt, place, List.length_drop]
      omega
    rw [result]
    simp only [place, Function.update_idem] at kept ⊢
    refine ⟨?_, by omega, fun _ => by omega⟩
    rintro fRet returned rfl
    simp at returned

theorem Reachable.progress (reachable : Reachable check system) :
    ∃ action next, system.step check action = some next ∧ (∀ vChecks, action ≠ .add vChecks) ∧
      ((action = .critical .master ∧ ∃ fRet, next.position .master = .returned fRet) ∨
        (action = .critical .master → ∀ fRet, next.position .master ≠ .returned fRet) ∧
          next.debt < system.debt) := by
  obtain ⟨inv, settled, few⟩ := reachable.inv
  by_cases busy : ∃ thread nNow vChecks fOk, system.position thread = .working nNow vChecks fOk
  · obtain ⟨thread, nNow, vChecks, fOk, working⟩ := busy
    cases vChecks with
    | cons first rest =>
        obtain ⟨next, step, moved, queue⟩ : ∃ next, system.step check (.check thread) = some next ∧
            next.position = Function.update system.position thread
              (.working nNow rest (if fOk then check first else fOk)) ∧
            next.shared = system.shared := by
          simp only [CheckSystem.step, working]
          exact ⟨_, rfl, rfl, rfl⟩
        refine ⟨.check thread, next, step, by simp, .inr ⟨by simp, ?_⟩⟩
        have sums := sum_update system.position debtOf thread
          (.working nNow rest (if fOk then check first else fOk))
        have owed : debtOf (.working nNow rest (if fOk then check first else fOk)) + 2 =
            debtOf (system.position thread) := by
          rw [working]
          rfl
        simp only [debt, moved, queue]
        omega
    | nil =>
        obtain ⟨next, step⟩ : ∃ next, system.step check (.critical thread) = some next := by
          simp only [CheckSystem.step, CheckSystem.lock, working, Option.map_some]
          exact ⟨_, rfl⟩
        refine ⟨.critical thread, next, step, by simp, ?_⟩
        rcases critical_debt reachable step with ⟨rfl, returned⟩ | ⟨stays, less, -⟩
        · exact .inl ⟨rfl, returned⟩
        · refine .inr ⟨?_, ?_⟩
          · rintro ⟨⟩ fRet returned
            exact stays fRet returned rfl
          · simp only [working, debtOf, List.length_nil] at less
            omega
  · have idle : ∀ thread nNow vChecks fOk, system.position thread ≠ .working nNow vChecks fOk :=
      fun thread nNow vChecks fOk working => busy ⟨thread, nNow, vChecks, fOk, working⟩
    have enters : ∃ locked, system.lock .master = some locked := by
      cases at_master : system.position .master with
      | outside => exact ⟨_, by simp only [CheckSystem.lock, at_master]; rfl⟩
      | locked => exact absurd at_master (settled .master)
      | waiting => exact ⟨_, by simp only [CheckSystem.lock, at_master]; rfl⟩
      | working nNow vChecks fOk => exact absurd at_master (idle .master nNow vChecks fOk)
      | returned fRet => exact ⟨_, by simp only [CheckSystem.lock, at_master, ↓reduceIte]; rfl⟩
    obtain ⟨locked, taken⟩ := enters
    have step : system.step check (.critical .master) = some (locked.unlock .master) := by
      simp only [CheckSystem.step, taken, Option.map_some]
    refine ⟨.critical .master, _, step, by simp, ?_⟩
    rcases critical_debt reachable step with ⟨-, returned⟩ | ⟨stays, -, less⟩
    · exact .inl ⟨rfl, returned⟩
    · refine .inr ⟨fun _ fRet returned => stays fRet returned rfl, less fun empty => ?_⟩
      have todo : system.shared.nTodo = 0 := by
        have none : system.outstanding = 0 := by
          simp only [outstanding, empty, List.length_nil, Nat.zero_add]
          refine Finset.sum_eq_zero fun thread _ => ?_
          cases at_thread : system.position thread with
          | working nNow vChecks fOk => exact absurd at_thread (idle thread nNow vChecks fOk)
          | _ => rfl
        rw [inv.todo, none]
        rfl
      have inv_locked := (inv.lock taken).1
      obtain ⟨shared, rfl, how⟩ := lock_cases taken
      have same : shared.queue = system.shared.queue ∧ shared.nTodo = system.shared.nTodo := by
        rcases how with ⟨-, rfl⟩ | ⟨-, rfl⟩ | ⟨nNow, fOk, working, -⟩
        · exact ⟨rfl, rfl⟩
        · exact ⟨rfl, rfl⟩
        · exact absurd working (idle .master nNow [] fOk)
      rcases unlock_cases .master inv_locked.fQuit with ⟨-, -, result, -⟩ | ⟨-, busy', -⟩ | ⟨some, -⟩
      · exact stays shared.fAllOk (by rw [result]; simp [place]) rfl
      · exact busy' ⟨rfl, same.2.trans todo⟩
      · exact some (same.1.trans empty)

theorem Reachable.waits (reachable : Reachable check system) : ∃ fRet last, Waits check system fRet last := by
  induction bound : system.debt using Nat.strong_induction_on generalizing system with
  | _ debt ih =>
      obtain ⟨action, next, step, noAdd, ⟨rfl, fRet, returned⟩ | ⟨stays, less⟩⟩ := reachable.progress
      · exact ⟨fRet, next, .returns step returned⟩
      · have added := step_added reachable noAdd stays step
        obtain ⟨fRet, last, waits⟩ := ih next.debt (bound ▸ less)
          (reachable.step step (added ▸ reachable.inv.2.2)) rfl
        exact ⟨fRet, last, .turn noAdd stays step waits⟩

theorem adds_of_outside (outside : system.Outside) (batches : List (List T)) :
    ∃ last, Adds check system batches last := by
  induction batches generalizing system with
  | nil => exact ⟨system, .done⟩
  | cons vChecks batches ih =>
      obtain ⟨next, step, same⟩ : ∃ next, system.step check (.add vChecks) = some next ∧
          next.position = system.position := by
        rcases outside with at_master | ⟨fRet, at_master⟩ <;> simp only [CheckSystem.step, at_master] <;>
          exact ⟨_, rfl, rfl⟩
      obtain ⟨last, adds⟩ := ih (show next.Outside by rwa [Outside, same])
      exact ⟨last, .add step adds⟩

theorem Unused.controls (unused : system.Unused check) (few : batches.flatten.length < 2 ^ 32) :
    ∃ fRet last, Controls check system batches fRet last := by
  obtain ⟨mid, adds⟩ := (adds_of_outside unused.outside batches : ∃ last, Adds check system batches last)
  obtain ⟨reachable, -⟩ := adds.reachable unused.reachable (by simpa [unused.none] using few)
  obtain ⟨fRet, last, waits⟩ := reachable.waits
  exact ⟨fRet, last, mid, adds, waits⟩

end CheckSystem

end BitCrystal
