import BitCrystal.CheckQueue
import BitCrystal.Data.Tables

namespace BitCrystal

open Data

/-! # Every schedule of the check queue

The counters are sums over the threads of what each of them contributes, and a
failure is recorded in `fAllOk` or in the `fOk` of the thread that has met it. -/

namespace Position

variable {T : Type}

def inLoop : Position T → Nat
  | .locked | .waiting | .working _ _ _ => 1
  | _ => 0

def idle : Position T → Nat
  | .waiting => 1
  | _ => 0

def nNow : Position T → Nat
  | .working nNow _ _ => nNow.toNat
  | _ => 0

def fOk : Position T → Bool
  | .working _ _ fOk => fOk
  | _ => true

end Position

namespace CCheckQueue

variable {T : Type} {pqueue : CCheckQueue T}

theorem batch_toNat : pqueue.batch.toNat = max 1 (min pqueue.nBatchSize.toNat
    (pqueue.queue.length % 2 ^ 32 / ((pqueue.nTotal + pqueue.nIdle + 1) % 2 ^ 32))) := by
  have minimum (a b : UInt32) : (min a b).toNat = min a.toNat b.toNat := by
    change (if a ≤ b then a else b).toNat = _
    split
    · next le => exact (min_eq_left (UInt32.le_iff_toNat_le.mp le)).symm
    · next gt => exact (min_eq_right (UInt32.le_iff_toNat_le.mp (UInt32.le_of_lt (by simpa using gt)))).symm
  have maximum (a b : UInt32) : (max a b).toNat = max a.toNat b.toNat := by
    change (if a ≤ b then b else a).toNat = _
    split
    · next le => exact (max_eq_right (UInt32.le_iff_toNat_le.mp le)).symm
    · next gt => exact (max_eq_left (UInt32.le_iff_toNat_le.mp (UInt32.le_of_lt (by simpa using gt)))).symm
  rw [batch, maximum, minimum, UInt32.toNat_div, UInt32.toNat_ofNat', UInt32.toNat_ofNat']
  rfl

theorem batch_bounds (some : pqueue.queue ≠ []) :
    1 ≤ pqueue.batch.toNat ∧ pqueue.batch.toNat ≤ pqueue.queue.length := by
  have positive := List.length_pos_iff.mpr some
  have quotient := Nat.div_le_self (pqueue.queue.length % 2 ^ 32)
    ((pqueue.nTotal + pqueue.nIdle + 1) % 2 ^ 32)
  have remainder := Nat.mod_le pqueue.queue.length (2 ^ 32)
  rw [batch_toNat]
  omega

end CCheckQueue

namespace CheckSystem

variable {nWorkers : Nat} {T : Type} {check : T → Bool} {system next : CheckSystem nWorkers T}
  {thread : Thread nWorkers}

/-- The checks in the queue and in the batches that have not been cleaned up. -/
def outstanding (system : CheckSystem nWorkers T) : Nat :=
  system.shared.queue.length + ∑ t, (system.position t).nNow

def Clean (system : CheckSystem nWorkers T) : Prop :=
  system.shared.fAllOk = true ∧ ∀ t, (system.position t).fOk = true

structure Inv (check : T → Bool) (system : CheckSystem nWorkers T) : Prop where
  fQuit : system.shared.fQuit = false
  total : system.shared.nTotal = ∑ t, (system.position t).inLoop
  idle : system.shared.nIdle = ∑ t, (system.position t).idle
  todo : system.shared.nTodo = UInt32.ofNat system.outstanding
  few : system.outstanding ≤ system.added.length
  perm : (system.handed.map Prod.snd ++ system.shared.queue).Perm system.added
  batch : ∀ t nNow vChecks fOk, system.position t = .working nNow vChecks fOk → nNow ≠ 0
  worker : ∀ i fRet, system.position (.worker i) ≠ .returned fRet
  held : ∀ t, ∀ c ∈ (system.position t).vChecks, c ∈ system.handed.map Prod.snd
  clean : system.Clean → system.skipped = [] ∧
    ∀ c ∈ system.handed.map Prod.snd, check c = true ∨ ∃ t, c ∈ (system.position t).vChecks
  failed : ¬ system.Clean → ∃ c ∈ system.added, check c = false

theorem inv_initial (nBatchSize : UInt32) : (initial nWorkers T nBatchSize).Inv check where
  fQuit := rfl
  total := by simp [initial, CCheckQueue.create, Position.inLoop]
  idle := by simp [initial, CCheckQueue.create, Position.idle]
  todo := by simp [initial, CCheckQueue.create, outstanding, Position.nNow]
  few := by simp [initial, CCheckQueue.create, outstanding, Position.nNow]
  perm := .refl _
  batch := by simp [initial]
  worker := by simp [initial]
  held := by simp [initial, Position.vChecks]
  clean := by simp [initial]
  failed := by simp [initial, Clean, CCheckQueue.create, Position.fOk]

theorem Inv.add (inv : system.Inv check) (vChecks : List T) :
    { system with shared := system.shared.add vChecks, added := system.added ++ vChecks }.Inv check := by
  have members : ∀ c ∈ system.added, c ∈ system.added ++ vChecks := fun c member => by simp [member]
  have more : ({ system with
      shared := system.shared.add vChecks, added := system.added ++ vChecks } :
        CheckSystem nWorkers T).outstanding = system.outstanding + vChecks.length := by
    simp only [outstanding, CCheckQueue.add, List.length_append, List.length_reverse]
    omega
  have few := inv.few
  refine ⟨inv.fQuit, inv.total, inv.idle, ?_, ?_, ?_, inv.batch, inv.worker, inv.held, inv.clean, ?_⟩
  · rw [more, UInt32.ofNat_add, ← inv.todo]
    rfl
  · rw [more, List.length_append]
    omega
  · have perm := inv.perm.append_right vChecks
    refine List.Perm.trans ?_ perm
    rw [List.append_assoc]
    refine List.Perm.append_left _ ?_
    exact (List.perm_append_comm).trans (List.Perm.append_left _ (List.reverse_perm vChecks))
  · intro recorded
    obtain ⟨c, member, failing⟩ := inv.failed recorded
    exact ⟨c, members c member, failing⟩

theorem sum_kept (weight : Position T → Nat) {old : Position T} (new : Position T)
    (before : system.position thread = old) (same : weight old = weight new) :
    ∑ t, weight (Function.update system.position thread new t) = ∑ t, weight (system.position t) := by
  have sums := sum_update system.position weight thread new
  rw [before] at sums
  omega

theorem Inv.checked {nNow : UInt32} {first : T} {rest : List T} {fOk : Bool} (inv : system.Inv check)
    (before : system.position thread = .working nNow (first :: rest) fOk) :
    { system with
      position := Function.update system.position thread
        (.working nNow rest (if fOk then check first else fOk))
      skipped := if fOk then system.skipped else first :: system.skipped }.Inv check := by
  have first_handed : first ∈ system.handed.map Prod.snd :=
    inv.held thread first (by simp [before, Position.vChecks])
  have first_added : first ∈ system.added :=
    inv.perm.mem_iff.mp (List.mem_append_left _ first_handed)
  let own : Position T := .working nNow rest (if fOk then check first else fOk)
  have kept : system.shared.queue.length + ∑ t, (Function.update system.position thread own t).nNow =
      system.outstanding := congrArg (system.shared.queue.length + ·) (sum_kept Position.nNow own before rfl)
  refine ⟨inv.fQuit, ?_, ?_, inv.todo.trans (congrArg UInt32.ofNat kept.symm),
    Nat.le_trans (Nat.le_of_eq kept) inv.few, inv.perm, ?_, ?_, ?_, ?_, ?_⟩
  · exact inv.total.trans (sum_kept Position.inLoop own before rfl).symm
  · exact inv.idle.trans (sum_kept Position.idle own before rfl).symm
  · intro t nNow' vChecks fOk' placed
    change Function.update system.position thread own t = _ at placed
    by_cases same : t = thread
    · subst same
      simp only [own, Function.update_self, Position.working.injEq] at placed
      exact placed.1 ▸ inv.batch t nNow (first :: rest) fOk before
    · rw [Function.update_of_ne same] at placed
      exact inv.batch t nNow' vChecks fOk' placed
  · intro i fRet placed
    change Function.update system.position thread own (.worker i) = _ at placed
    by_cases same : Thread.worker i = thread
    · subst same
      simp [own] at placed
    · rw [Function.update_of_ne same] at placed
      exact inv.worker i fRet placed
  · intro t c member
    change c ∈ (Function.update system.position thread own t).vChecks at member
    by_cases same : t = thread
    · subst same
      rw [Function.update_self] at member
      exact inv.held t c (by simpa [before, Position.vChecks] using Or.inr member)
    · rw [Function.update_of_ne same] at member
      exact inv.held t c member
  · intro ⟨fAllOk, each⟩
    change ∀ t, (Function.update system.position thread own t).fOk = true at each
    obtain ⟨fOk_eq, others⟩ :=
      (Function.forall_update_iff system.position fun _ at_t => at_t.fOk = true).mp each
    have passed : fOk = true ∧ check first = true := by
      cases fOk with
      | false => simp [own, Position.fOk] at fOk_eq
      | true => simpa [own, Position.fOk] using fOk_eq
    have wasClean : system.Clean := by
      refine ⟨fAllOk, fun t => ?_⟩
      by_cases same : t = thread
      · rw [same, before]
        exact passed.1
      · exact others t same
    obtain ⟨skipped, done⟩ := inv.clean wasClean
    refine ⟨by simp [passed.1, skipped], fun c member => ?_⟩
    cases done c member with
    | inl good => exact Or.inl good
    | inr batch =>
        obtain ⟨t, inside⟩ := batch
        by_cases same : t = thread
        · subst same
          rw [before] at inside
          cases List.mem_cons.mp inside with
          | inl isFirst => exact Or.inl (isFirst ▸ passed.2)
          | inr later => exact Or.inr ⟨t, by simpa [Position.vChecks] using later⟩
        · refine Or.inr ⟨t, ?_⟩
          change c ∈ (Function.update system.position thread own t).vChecks
          rw [Function.update_of_ne same]
          exact inside
  · intro recorded
    by_cases wasClean : system.Clean
    · refine ⟨first, first_added, ?_⟩
      cases failing : check first with
      | false => rfl
      | true =>
          refine absurd ⟨wasClean.1, ?_⟩ recorded
          change ∀ t, (Function.update system.position thread own t).fOk = true
          refine (Function.forall_update_iff system.position fun _ at_t => at_t.fOk = true).mpr ?_
          refine ⟨?_, fun t _ => wasClean.2 t⟩
          have fOk_eq := wasClean.2 thread
          rw [before] at fOk_eq
          simpa [own, Position.fOk, failing] using fOk_eq
    · exact inv.failed wasClean

theorem Inv.placed {shared : CCheckQueue T} {new : Position T} (inv : system.Inv check)
    (done : (system.position thread).vChecks = [])
    (fQuit : shared.fQuit = system.shared.fQuit)
    (total : shared.nTotal + (system.position thread).inLoop = system.shared.nTotal + new.inLoop)
    (idle : shared.nIdle + (system.position thread).idle = system.shared.nIdle + new.idle)
    (queue : new.vChecks ++ shared.queue = system.shared.queue)
    (units : new.nNow = new.vChecks.length)
    (todo : shared.nTodo + UInt32.ofNat (system.position thread).nNow = system.shared.nTodo)
    (failure : (shared.fAllOk && new.fOk) = (system.shared.fAllOk && (system.position thread).fOk))
    (batch : ∀ nNow vChecks fOk, new = .working nNow vChecks fOk → nNow ≠ 0)
    (worker : ∀ fRet, new ≠ .returned fRet) :
    { system.place thread shared new with
      handed := system.handed ++ new.vChecks.map (thread, ·) }.Inv check := by
  have outstanding_eq : shared.queue.length + ∑ t, (Function.update system.position thread new t).nNow +
      (system.position thread).nNow = system.outstanding := by
    have sums := sum_update system.position Position.nNow thread new
    have lengths := congrArg List.length queue
    rw [List.length_append] at lengths
    simp only [outstanding]
    omega
  have handed_eq : (system.handed ++ new.vChecks.map (thread, ·)).map Prod.snd =
      system.handed.map Prod.snd ++ new.vChecks := by simp
  have clean_iff : (shared.fAllOk = true ∧
      ∀ t, (Function.update system.position thread new t).fOk = true) ↔ system.Clean := by
    rw [Function.forall_update_iff system.position fun _ at_t => at_t.fOk = true]
    rw [Bool.eq_iff_iff, Bool.and_eq_true, Bool.and_eq_true] at failure
    rw [← and_assoc, failure, and_assoc]
    refine and_congr_right fun _ => ⟨fun own t => ?_, fun all => ⟨all thread, fun t _ => all t⟩⟩
    by_cases same : t = thread
    · exact same ▸ own.1
    · exact own.2 t same
  constructor
  case fQuit => exact fQuit.trans inv.fQuit
  case total =>
    have sums := sum_update system.position Position.inLoop thread new
    have before := inv.total
    change shared.nTotal = ∑ t, (Function.update system.position thread new t).inLoop
    omega
  case idle =>
    have sums := sum_update system.position Position.idle thread new
    have before := inv.idle
    change shared.nIdle = ∑ t, (Function.update system.position thread new t).idle
    omega
  case todo =>
    refine add_right_cancel (b := UInt32.ofNat (system.position thread).nNow) ?_
    rw [← UInt32.ofNat_add]
    exact todo.trans (inv.todo.trans (congrArg UInt32.ofNat outstanding_eq.symm))
  case few => exact Nat.le_trans (Nat.le_of_add_right_le (Nat.le_of_eq outstanding_eq)) inv.few
  case perm =>
    rw [handed_eq, List.append_assoc]
    change (_ ++ (new.vChecks ++ shared.queue)).Perm system.added
    rw [queue]
    exact inv.perm
  case batch =>
    refine (Function.forall_update_iff system.position fun _ at_t =>
      ∀ nNow vChecks fOk, at_t = .working nNow vChecks fOk → nNow ≠ 0).mpr ⟨batch, ?_⟩
    exact fun t _ => inv.batch t
  case worker =>
    intro i fRet
    change Function.update system.position thread new (.worker i) ≠ _
    by_cases same : Thread.worker i = thread
    · subst same
      rw [Function.update_self]
      exact worker fRet
    · rw [Function.update_of_ne same]
      exact inv.worker i fRet
  case held =>
    rw [handed_eq]
    refine (Function.forall_update_iff system.position fun _ at_t =>
      ∀ c ∈ at_t.vChecks, c ∈ system.handed.map Prod.snd ++ new.vChecks).mpr ⟨?_, ?_⟩
    · exact fun c member => List.mem_append_right _ member
    · exact fun t _ c member => List.mem_append_left _ (inv.held t c member)
  case clean =>
    intro clean
    obtain ⟨skipped, checked⟩ := inv.clean (clean_iff.mp clean)
    refine ⟨skipped, ?_⟩
    rw [handed_eq]
    change ∀ c ∈ _, check c = true ∨ ∃ t, c ∈ (Function.update system.position thread new t).vChecks
    intro c member
    cases List.mem_append.mp member with
    | inr taken => exact Or.inr ⟨thread, by rwa [Function.update_self]⟩
    | inl earlier =>
        refine (checked c earlier).imp_right fun inside => ?_
        obtain ⟨t, inside⟩ := inside
        have other : t ≠ thread := by
          rintro rfl
          simp [done] at inside
        exact ⟨t, by rwa [Function.update_of_ne other]⟩
  case failed => exact fun recorded => inv.failed fun clean => recorded (clean_iff.mpr clean)

theorem place_handed (shared : CCheckQueue T) (new : Position T) (none : new.vChecks = []) :
    { system.place thread shared new with
      handed := system.handed ++ new.vChecks.map (thread, ·) } = system.place thread shared new := by
  simp [none, place]

theorem lock_cases {locked : CheckSystem nWorkers T} (step : system.lock thread = some locked) :
    ∃ shared, locked = system.place thread shared .locked ∧
      (((system.position thread = .outside ∨ ∃ fRet, system.position thread = .returned fRet) ∧
          shared = { system.shared with nTotal := system.shared.nTotal + 1 }) ∨
        (system.position thread = .waiting ∧
          shared = { system.shared with nIdle := system.shared.nIdle - 1 }) ∨
        ∃ nNow fOk, system.position thread = .working nNow [] fOk ∧
          shared = system.shared.cleanUp nNow fOk) := by
  simp only [lock] at step
  split at step
  · next before =>
      cases step
      exact ⟨_, rfl, Or.inl ⟨Or.inl before, by simp [CCheckQueue.cleanUp]⟩⟩
  · cases step
  · next before =>
      cases step
      exact ⟨_, rfl, Or.inr (Or.inl ⟨before, rfl⟩)⟩
  · next nNow fOk before =>
      cases step
      exact ⟨_, rfl, Or.inr (Or.inr ⟨nNow, fOk, before, rfl⟩)⟩
  · cases step
  · next fRet before =>
      split at step
      · cases step
        exact ⟨_, rfl, Or.inl ⟨Or.inr ⟨fRet, before⟩, by simp [CCheckQueue.cleanUp]⟩⟩
      · cases step

theorem Inv.lock {locked : CheckSystem nWorkers T} (inv : system.Inv check)
    (step : system.lock thread = some locked) :
    locked.Inv check ∧ ∃ shared, locked = system.place thread shared .locked := by
  obtain ⟨shared, rfl, how⟩ := lock_cases step
  refine ⟨?_, shared, rfl⟩
  have plain : _ = system.place thread shared .locked := place_handed shared .locked rfl
  rw [← plain]
  rcases how with ⟨entering, rfl⟩ | ⟨before, rfl⟩ | ⟨nNow, fOk, before, rfl⟩
  · have old : (system.position thread).vChecks = [] ∧ (system.position thread).inLoop = 0 ∧
        (system.position thread).idle = 0 ∧ (system.position thread).nNow = 0 ∧
        (system.position thread).fOk = true := by
      rcases entering with before | ⟨fRet, before⟩ <;> rw [before] <;> exact ⟨rfl, rfl, rfl, rfl, rfl⟩
    obtain ⟨done, inLoop, idle, nNow, fOk⟩ := old
    refine inv.placed done rfl ?_ ?_ rfl rfl ?_ ?_ (by simp) (by simp)
    · rw [inLoop]
      rfl
    · rw [idle]
      rfl
    · rw [nNow]
      exact add_zero _
    · rw [fOk]
      rfl
  · have positive : system.shared.nIdle ≥ 1 := by
      rw [inv.idle]
      have one : (system.position thread).idle = 1 := by rw [before]; rfl
      rw [← one]
      exact Finset.single_le_sum (f := fun t => (system.position t).idle) (fun _ _ => Nat.zero_le _)
        (Finset.mem_univ thread)
    refine inv.placed (by rw [before]; rfl) rfl ?_ ?_ rfl rfl ?_ ?_ (by simp) (by simp)
    · rw [before]
      rfl
    · rw [before]
      simp only [Position.idle]
      omega
    · rw [before]
      exact add_zero _
    · rw [before]
      rfl
  · have nonzero := inv.batch thread nNow [] fOk before
    simp only [CCheckQueue.cleanUp, if_pos nonzero]
    refine inv.placed (by rw [before]; rfl) rfl ?_ ?_ rfl rfl ?_ ?_ (by simp) (by simp)
    · rw [before]
      rfl
    · rw [before]
      rfl
    · rw [before]
      simp [Position.nNow]
    · rw [before]
      simp [Position.fOk]

theorem unlock_cases (thread : Thread nWorkers) (fQuit : system.shared.fQuit = false) :
    (thread = .master ∧ system.shared.nTodo = 0 ∧
        system.unlock thread =
          { shared := { system.shared with nTotal := system.shared.nTotal - 1, fAllOk := true }
            position := Function.update system.position thread (.returned system.shared.fAllOk)
            added := []
            handed := []
            skipped := [] } ∧ system.shared.queue = []) ∨
      (system.shared.queue = [] ∧ ¬ (thread = .master ∧ system.shared.nTodo = 0) ∧
        system.unlock thread =
          system.place thread { system.shared with nIdle := system.shared.nIdle + 1 } .waiting) ∨
      (system.shared.queue ≠ [] ∧
        system.unlock thread =
          { system.place thread
              { system.shared with
                queue := system.shared.queue.drop system.shared.batch.toNat }
              (.working system.shared.batch (system.shared.queue.take system.shared.batch.toNat)
                system.shared.fAllOk) with
            handed := system.handed ++
              (system.shared.queue.take system.shared.batch.toNat).map (thread, ·) }) := by
  cases empty : system.shared.queue with
  | cons first rest =>
      refine Or.inr (Or.inr ⟨by simp, ?_⟩)
      simp [unlock, CCheckQueue.proceed, empty, Position.vChecks]
  | nil =>
      by_cases leaving : thread = .master ∧ system.shared.nTodo = 0
      · obtain ⟨rfl, todo⟩ := leaving
        exact Or.inl ⟨rfl, todo, by simp [unlock, CCheckQueue.proceed, empty, todo, place], rfl⟩
      · refine Or.inr (Or.inl ?_)
        have stay : ¬ (((decide (thread = Thread.master) || system.shared.fQuit) &&
            decide (system.shared.nTodo = 0)) = true) := by simpa [fQuit] using leaving
        simp only [unlock, CCheckQueue.proceed, empty, List.isEmpty_nil, if_true, if_neg stay]
        exact ⟨trivial, leaving, place_handed _ .waiting rfl⟩

theorem Inv.drained (inv : system.Inv check) (few : system.added.length < 2 ^ 32)
    (todo : system.shared.nTodo = 0) :
    system.shared.queue = [] ∧ ∀ t nNow vChecks fOk, system.position t ≠ .working nNow vChecks fOk := by
  have none : system.outstanding = 0 := by
    have zero := congrArg UInt32.toNat (inv.todo.symm.trans todo)
    have bound := inv.few
    rw [UInt32.toNat_ofNat', Nat.mod_eq_of_lt (by omega)] at zero
    simpa using zero
  simp only [outstanding, Nat.add_eq_zero_iff, List.length_eq_zero_iff, Finset.sum_eq_zero_iff] at none
  refine ⟨none.1, fun t nNow vChecks fOk working => ?_⟩
  have units := none.2 t (Finset.mem_univ t)
  rw [working] at units
  refine inv.batch t nNow vChecks fOk working (UInt32.toNat_inj.mp ?_)
  exact units

theorem Inv.finished (inv : system.Inv check) (few : system.added.length < 2 ^ 32)
    (todo : system.shared.nTodo = 0) :
    (system.shared.fAllOk = true ↔ ∀ c ∈ system.added, check c = true) ∧
      (system.skipped ≠ [] → system.shared.fAllOk = false) := by
  obtain ⟨empty, rest⟩ := inv.drained few todo
  have all_fOk : ∀ t, (system.position t).fOk = true := by
    intro t
    cases at_t : system.position t with
    | working nNow vChecks fOk => exact absurd at_t (rest t nNow vChecks fOk)
    | _ => rfl
  have no_vChecks : ∀ t, (system.position t).vChecks = [] := by
    intro t
    cases at_t : system.position t with
    | working nNow vChecks fOk => exact absurd at_t (rest t nNow vChecks fOk)
    | _ => rfl
  have perm := inv.perm
  rw [empty, List.append_nil] at perm
  constructor
  · constructor
    · intro fAllOk c member
      obtain ⟨-, checked⟩ := inv.clean ⟨fAllOk, all_fOk⟩
      cases checked c (perm.mem_iff.mpr member) with
      | inl passed => exact passed
      | inr inside =>
          obtain ⟨t, inside⟩ := inside
          simp [no_vChecks t] at inside
    · intro passed
      by_contra recorded
      obtain ⟨c, member, failing⟩ := inv.failed fun clean => recorded clean.1
      simp [passed c member] at failing
  · intro skipping
    cases fAllOk : system.shared.fAllOk with
    | false => rfl
    | true => exact absurd (inv.clean ⟨fAllOk, all_fOk⟩).1 skipping

theorem Inv.unlock (inv : system.Inv check) (before : system.position thread = .locked)
    (few : system.added.length < 2 ^ 32) : (system.unlock thread).Inv check := by
  have done : (system.position thread).vChecks = [] := by rw [before]; rfl
  rcases unlock_cases thread inv.fQuit with
    ⟨rfl, todo, result, empty⟩ | ⟨-, -, result⟩ | ⟨some, result⟩
  · obtain ⟨-, rest⟩ := inv.drained few todo
    have at_rest : ∀ t nNow vChecks fOk,
        Function.update system.position .master (.returned system.shared.fAllOk) t ≠
          .working nNow vChecks fOk := by
      refine (Function.forall_update_iff system.position fun _ at_t =>
        ∀ nNow vChecks fOk, at_t ≠ .working nNow vChecks fOk).mpr ⟨by simp, ?_⟩
      exact fun t _ => rest t
    have quiet : ∀ t, (Function.update system.position .master (.returned system.shared.fAllOk) t).nNow = 0 ∧
        (Function.update system.position .master (.returned system.shared.fAllOk) t).vChecks = [] ∧
        (Function.update system.position .master (.returned system.shared.fAllOk) t).fOk = true := by
      intro t
      cases at_t : Function.update system.position .master (.returned system.shared.fAllOk) t with
      | working nNow vChecks fOk => exact absurd at_t (at_rest t nNow vChecks fOk)
      | _ => exact ⟨rfl, rfl, rfl⟩
    rw [result]
    constructor
    case fQuit => exact inv.fQuit
    case total =>
      have sums := sum_update system.position Position.inLoop .master (.returned system.shared.fAllOk)
      have total := inv.total
      have inside : (system.position .master).inLoop = 1 := by rw [before]; rfl
      have left : (Position.returned system.shared.fAllOk : Position T).inLoop = 0 := rfl
      change system.shared.nTotal - 1 =
        ∑ t, (Function.update system.position .master (.returned system.shared.fAllOk) t).inLoop
      omega
    case idle =>
      have sums := sum_update system.position Position.idle .master (.returned system.shared.fAllOk)
      have idle := inv.idle
      have awake : (system.position .master).idle = 0 := by rw [before]; rfl
      have left : (Position.returned system.shared.fAllOk : Position T).idle = 0 := rfl
      change system.shared.nIdle =
        ∑ t, (Function.update system.position .master (.returned system.shared.fAllOk) t).idle
      omega
    case todo => simp [outstanding, empty, todo, quiet]
    case few => simp [outstanding, empty, quiet]
    case perm => simp [empty]
    case batch => exact fun t nNow vChecks fOk placed => absurd placed (at_rest t nNow vChecks fOk)
    case worker => exact fun i fRet => by simpa using inv.worker i fRet
    case held => simp [quiet]
    case clean => simp
    case failed => exact fun recorded => absurd ⟨rfl, fun t => (quiet t).2.2⟩ recorded
  · rw [result, ← place_handed _ .waiting rfl]
    refine inv.placed done rfl ?_ ?_ rfl rfl ?_ ?_ (by simp) (by simp)
    · rw [before]
      rfl
    · rw [before]
      rfl
    · rw [before]
      exact add_zero _
    · rw [before]
      rfl
  · have bounds := CCheckQueue.batch_bounds some
    rw [result]
    refine inv.placed done rfl ?_ ?_ (List.take_append_drop _ _) ?_ ?_ ?_ ?_ (by simp)
    · rw [before]
      rfl
    · rw [before]
      rfl
    · exact (List.length_take_of_le bounds.2).symm
    · rw [before]
      exact add_zero _
    · rw [before]
      simp [Position.fOk]
    · intro nNow vChecks fOk working
      cases working
      intro zero
      rw [zero] at bounds
      simp at bounds

def Settled (system : CheckSystem nWorkers T) : Prop :=
  ∀ t, system.position t ≠ .locked

theorem Settled.unlock {shared : CCheckQueue T} (settled : system.Settled)
    (fQuit : shared.fQuit = false) : ((system.place thread shared .locked).unlock thread).Settled := by
  have others : ∀ new : Position T, new ≠ .locked →
      ∀ t, Function.update (Function.update system.position thread .locked) thread new t ≠ .locked := by
    intro new free
    rw [Function.update_idem]
    refine (Function.forall_update_iff system.position fun _ at_t => at_t ≠ .locked).mpr ⟨free, ?_⟩
    exact fun t _ => settled t
  have free : (system.place thread shared .locked).shared.fQuit = false := fQuit
  rcases unlock_cases thread free with
    ⟨-, -, result, -⟩ | ⟨-, -, result⟩ | ⟨-, result⟩
  · rw [result]
    exact others _ (by simp)
  · rw [result]
    exact others _ (by simp)
  · rw [result]
    exact others _ (by simp)

theorem Inv.step {action : CheckAction nWorkers T} (inv : system.Inv check) (settled : system.Settled)
    (few : system.added.length < 2 ^ 32) (step : system.step check action = some next) :
    next.Inv check ∧ next.Settled := by
  cases action with
  | add vChecks =>
      simp only [CheckSystem.step] at step
      split at step
      · cases step
        exact ⟨inv.add vChecks, settled⟩
      · cases step
        exact ⟨inv.add vChecks, settled⟩
      · cases step
  | check thread =>
      simp only [CheckSystem.step] at step
      split at step
      · next nNow first rest fOk before =>
          cases step
          refine ⟨inv.checked before, ?_⟩
          refine (Function.forall_update_iff system.position fun _ at_t => at_t ≠ .locked).mpr ⟨by simp, ?_⟩
          exact fun t _ => settled t
      · cases step
  | critical thread =>
      simp only [CheckSystem.step, Option.map_eq_some_iff] at step
      obtain ⟨locked, taken, rfl⟩ := step
      obtain ⟨inv_locked, shared, rfl⟩ := inv.lock taken
      refine ⟨inv_locked.unlock (by simp [place]) few, settled.unlock inv_locked.fQuit⟩

theorem Reachable.inv (reachable : Reachable check system) :
    system.Inv check ∧ system.Settled ∧ system.added.length < 2 ^ 32 := by
  induction reachable with
  | initial nBatchSize =>
      exact ⟨inv_initial nBatchSize, by simp [Settled, CheckSystem.initial], by simp [CheckSystem.initial]⟩
  | step before step few ih =>
      obtain ⟨inv, settled⟩ := ih.1.step ih.2.1 ih.2.2 step
      exact ⟨inv, settled, few⟩

theorem Inv.unused (inv : system.Inv check) (settled : system.Settled) (none : system.added = []) :
    system.shared.nTotal = system.shared.nIdle ∧ system.shared.nTodo = 0 ∧
      system.shared.fAllOk = true ∧ system.shared.queue = [] := by
  have few : system.added.length < 2 ^ 32 := by simp [none]
  have todo : system.shared.nTodo = 0 := by
    have bound := inv.few
    have outstanding : system.outstanding = 0 := by
      rw [none] at bound
      exact Nat.le_zero.mp bound
    rw [inv.todo, outstanding]
    rfl
  obtain ⟨empty, rest⟩ := inv.drained few todo
  refine ⟨?_, todo, ?_, empty⟩
  · rw [inv.total, inv.idle]
    refine Finset.sum_congr rfl fun t _ => ?_
    cases at_t : system.position t with
    | locked => exact absurd at_t (settled t)
    | working nNow vChecks fOk => exact absurd at_t (rest t nNow vChecks fOk)
    | _ => rfl
  · exact (inv.finished few todo).1.mpr (by simp [none])

theorem Reachable.wait {fRet : Bool} (reachable : Reachable check system)
    (step : system.step check (.critical .master) = some next)
    (returned : next.position .master = .returned fRet) :
    (fRet = true ↔ ∀ c ∈ system.added, check c = true) ∧ (system.skipped ≠ [] → fRet = false) ∧
      next.shared.queue = [] ∧ next.shared.nTodo = 0 ∧
      next.shared.nIdle = next.shared.nTotal ∧ next.shared.fAllOk = true ∧ next.added = [] := by
  obtain ⟨inv, settled, few⟩ := reachable.inv
  obtain ⟨inv_next, settled_next⟩ := inv.step settled few step
  simp only [CheckSystem.step, Option.map_eq_some_iff] at step
  obtain ⟨locked, taken, rfl⟩ := step
  obtain ⟨inv_locked, shared, rfl⟩ := inv.lock taken
  rcases unlock_cases .master inv_locked.fQuit with ⟨-, todo, result, -⟩ | ⟨-, -, result⟩ | ⟨-, result⟩
  · obtain ⟨wait, skipping⟩ := inv_locked.finished few todo
    obtain ⟨total, nTodo, fAllOk, empty⟩ :=
      inv_next.unused settled_next (by rw [result])
    have fRet_eq : fRet = shared.fAllOk := by
      rw [result] at returned
      simpa [place] using returned.symm
    rw [fRet_eq]
    exact ⟨wait, skipping, empty, nTodo, total.symm, fAllOk, by rw [result]⟩
  · rw [result] at returned
    simp [place] at returned
  · rw [result] at returned
    simp [place] at returned

/-- Every schedule of the queue, with fewer than `2 ^ 32` checks between two Waits. -/
theorem checkQueue_correct (reachable : Reachable check system) :
    -- a check is in the queue or with one thread
    (system.handed.map Prod.snd ++ system.shared.queue).Perm system.added ∧
      (system.added.Nodup → ∀ c t t', (t, c) ∈ system.handed → (t', c) ∈ system.handed → t = t') ∧
      -- the assertions of CCheckQueueControl
      (system.added = [] → system.shared.nTotal = system.shared.nIdle ∧
        system.shared.nTodo = 0 ∧ system.shared.fAllOk = true) ∧
      -- the return of Wait
      ∀ next fRet, system.step check (.critical .master) = some next →
        next.position .master = .returned fRet →
        (fRet = true ↔ ∀ c ∈ system.added, check c = true) ∧
          (system.skipped ≠ [] → fRet = false) ∧
          next.shared.queue = [] ∧ next.shared.nTodo = 0 ∧
          next.shared.nIdle = next.shared.nTotal ∧ next.shared.fAllOk = true := by
  obtain ⟨inv, settled, few⟩ := reachable.inv
  refine ⟨inv.perm, ?_, ?_, ?_⟩
  · intro distinct c t t' first second
    have handed_distinct : (system.handed.map Prod.snd).Nodup :=
      (List.nodup_append.mp (inv.perm.nodup_iff.mpr distinct)).1
    exact congrArg Prod.fst (List.inj_on_of_nodup_map handed_distinct first second rfl)
  · intro none
    obtain ⟨total, todo, fAllOk, -⟩ := inv.unused settled none
    exact ⟨total, todo, fAllOk⟩
  · intro next fRet step returned
    obtain ⟨verdict, skipping, empty, nTodo, total, fAllOk, -⟩ := reachable.wait step returned
    exact ⟨verdict, skipping, empty, nTodo, total, fAllOk⟩

theorem checkQueue_correct_alone : ∃ system next : CheckSystem 1 Bool,
    system.step id (.critical .master) = some next ∧ next.position .master = .returned true ∧
      system.added = [true] ∧ next.shared.queue = [] ∧ next.shared.nIdle = next.shared.nTotal := by
  have start : Reachable id (initial 1 Bool 128) := .initial 128
  obtain ⟨system, reachable, one, next, step, returned⟩ : ∃ system : CheckSystem 1 Bool,
      Reachable id system ∧ system.added = [true] ∧ ∃ next,
        system.step id (.critical .master) = some next ∧ next.position .master = .returned true := by
    have added := start.step (show CheckSystem.step id _ (.add [true]) = some _ from rfl) (by decide)
    have taken := added.step (show CheckSystem.step id _ (.critical .master) = some _ from rfl) (by decide)
    have checked := taken.step (show CheckSystem.step id _ (.check .master) = some _ from rfl) (by decide)
    exact ⟨_, checked, rfl, _, rfl, rfl⟩
  obtain ⟨-, -, -, wait⟩ := checkQueue_correct reachable
  obtain ⟨-, -, empty, -, idle, -⟩ := wait next true step returned
  exact ⟨system, next, step, returned, one, empty, idle⟩

/-- Some step leads from one state to the other. -/
def Moves (check : T → Bool) (system next : CheckSystem nWorkers T) : Prop :=
  ∃ action, system.step check action = some next

def take (system : CheckSystem nWorkers T) (thread : Thread nWorkers) (shared : CCheckQueue T) :
    CheckSystem nWorkers T :=
  { system.place thread { shared with queue := shared.queue.drop shared.batch.toNat }
      (.working shared.batch (shared.queue.take shared.batch.toNat) shared.fAllOk) with
    handed := system.handed ++ (shared.queue.take shared.batch.toNat).map (thread, ·) }

theorem unlock_take {shared : CCheckQueue T} (some : shared.queue ≠ []) :
    (system.place thread shared .locked).unlock thread = system.take thread shared := by
  simp [unlock, CCheckQueue.proceed, some, place, take, Position.vChecks]

theorem critical_outside (outside : system.position thread = .outside) (queue : system.shared.queue ≠ []) :
    system.step check (.critical thread) =
      some (system.take thread { system.shared with nTotal := system.shared.nTotal + 1 }) := by
  simp only [CheckSystem.step, lock, outside, Option.map_some]
  rw [unlock_take (by simpa [CCheckQueue.cleanUp] using queue)]
  simp [CCheckQueue.cleanUp]

theorem critical_working {nNow : UInt32} {fOk : Bool} (working : system.position thread = .working nNow [] fOk)
    (nonzero : nNow ≠ 0) (queue : system.shared.queue ≠ []) :
    system.step check (.critical thread) =
      some (system.take thread (system.shared.cleanUp nNow fOk)) := by
  simp only [CheckSystem.step, lock, working, Option.map_some]
  rw [unlock_take (by simpa [CCheckQueue.cleanUp, nonzero] using queue)]

theorem drain {vChecks : List T} {nNow : UInt32}
    (todo : system.shared.nTodo = nNow + UInt32.ofNat system.shared.queue.length)
    (fAllOk : system.shared.fAllOk = true) (nonzero : nNow ≠ 0)
    (working : system.position .master = .working nNow vChecks true)
    (batch : ∀ c ∈ vChecks, check c = true) (queue : ∀ c ∈ system.shared.queue, check c = true) :
    ∃ last next : CheckSystem nWorkers T, Relation.ReflTransGen (Moves check) system last ∧
      last.added = system.added ∧ last.step check (.critical .master) = some next ∧
      next.position .master = .returned true := by
  -- on the queue, and for each queue on the rest of the batch
  induction size : system.shared.queue.length using Nat.strong_induction_on
    generalizing system vChecks nNow with
  | _ length shorter =>
      induction vChecks generalizing system with
      | cons first rest ih =>
          have passed : check first = true := batch first (by simp)
          let checked : CheckSystem nWorkers T := { system with
            position := Function.update system.position .master (.working nNow rest true) }
          have todo' : checked.shared.nTodo = nNow + UInt32.ofNat checked.shared.queue.length := todo
          have placed : checked.position .master = .working nNow rest true := by simp [checked]
          have step : system.step check (.check .master) = some checked := by
            simp [CheckSystem.step, working, passed, checked]
          obtain ⟨last, next, runs, result⟩ :=
            ih todo' fAllOk placed (fun c member => batch c (by simp [member])) queue size
          exact ⟨last, next, Relation.ReflTransGen.head ⟨.check .master, step⟩ runs, result⟩
      | nil =>
          have cleanUp : system.shared.cleanUp nNow true =
              { system.shared with fAllOk := true, nTodo := UInt32.ofNat system.shared.queue.length } := by
            simp [CCheckQueue.cleanUp, nonzero, fAllOk, todo]
          by_cases empty : system.shared.queue = []
          · let locked := system.place .master (system.shared.cleanUp nNow true) .locked
            refine ⟨system, locked.unlock .master, .refl, rfl, ?_, ?_⟩
            · simp [CheckSystem.step, lock, working, locked]
            · simp [locked, unlock, CCheckQueue.proceed, cleanUp, place, empty]
          · have step : system.step check (.critical .master) = _ := critical_working working nonzero empty
            rw [cleanUp] at step
            generalize taken : ({ system.shared with
              fAllOk := true, nTodo := UInt32.ofNat system.shared.queue.length } : CCheckQueue T) =
                shared at step
            have bounds : 1 ≤ shared.batch.toNat ∧ shared.batch.toNat ≤ system.shared.queue.length := by
              subst taken
              exact CCheckQueue.batch_bounds empty
            have todo' : (system.take .master shared).shared.nTodo = shared.batch +
                UInt32.ofNat (system.take .master shared).shared.queue.length := by
              subst taken
              simp only [take, place, List.length_drop]
              conv_lhs => rw [← Nat.add_sub_of_le bounds.2, UInt32.ofNat_add, UInt32.ofNat_toNat]
            have nonzero' : shared.batch ≠ 0 := by
              intro zero
              rw [zero] at bounds
              simp at bounds
            have working' : (system.take .master shared).position .master =
                .working shared.batch (system.shared.queue.take shared.batch.toNat) true := by
              subst taken
              simp [take, place]
            have queue' : (system.take .master shared).shared.queue =
                system.shared.queue.drop shared.batch.toNat := by
              subst taken
              rfl
            have less : (system.take .master shared).shared.queue.length < length := by
              rw [queue', List.length_drop]
              omega
            obtain ⟨last, next, runs, result⟩ :=
              shorter _ less todo' (by subst taken; rfl) nonzero' working'
                (fun c member => queue c (List.mem_of_mem_take member))
                (fun c member => queue c (List.mem_of_mem_drop (queue' ▸ member))) rfl
            exact ⟨last, next, Relation.ReflTransGen.head ⟨.critical .master, step⟩ runs, result⟩

/-- The workers below `entered` have `taken` checks with them. -/
structure Stage (entered taken : Nat) (queue : List Bool) (system : CheckSystem 3 Bool) : Prop where
  runs : Relation.ReflTransGen (Moves id) (initial 3 Bool 4294967295) system
  queue_eq : system.shared.queue = queue
  nIdle : system.shared.nIdle = 0
  nTotal : system.shared.nTotal = entered
  fAllOk : system.shared.fAllOk = true
  nBatchSize : system.shared.nBatchSize = 4294967295
  todo : system.shared.nTodo = UInt32.ofNat (taken + queue.length)
  master : system.position .master = .outside
  workers : ∀ i : Fin 3, entered ≤ i → system.position (.worker i) = .outside

namespace Stage

variable {entered taken : Nat} {queue : List Bool} {system : CheckSystem 3 Bool}

theorem add (stage : Stage entered taken queue system) (vChecks : List Bool) :
    ∃ next, Stage entered taken (vChecks.reverse ++ queue) next ∧ next.added = system.added ++ vChecks := by
  refine ⟨{ system with
    shared := system.shared.add vChecks, added := system.added ++ vChecks }, ⟨?_, ?_, stage.nIdle,
    stage.nTotal, stage.fAllOk, stage.nBatchSize, ?_, stage.master, stage.workers⟩, rfl⟩
  · exact stage.runs.tail ⟨.add vChecks, by simp [CheckSystem.step, stage.master]⟩
  · simp [CCheckQueue.add, stage.queue_eq]
  · have lengths : taken + (vChecks.reverse ++ queue).length = taken + queue.length + vChecks.length := by
      rw [List.length_append, List.length_reverse]
      omega
    rw [lengths, UInt32.ofNat_add, ← stage.todo]
    rfl

theorem take {i : Fin 3} (stage : Stage i taken queue system) (some : queue ≠ []) (batch : Nat)
    (share : max 1 (min 4294967295 (queue.length % 2 ^ 32 / (i + 2))) = batch) :
    ∃ next, Stage (i + 1) (taken + batch) (queue.drop batch) next ∧ next.added = system.added := by
  have outside := stage.workers i le_rfl
  have step : system.step id (.critical (.worker i)) = _ :=
    critical_outside outside (by rw [stage.queue_eq]; exact some)
  generalize entering : ({ system.shared with nTotal := system.shared.nTotal + 1 } : CCheckQueue Bool) =
    shared at step
  have queue_eq : shared.queue = queue := by rw [← entering]; exact stage.queue_eq
  have batch_eq : shared.batch.toNat = batch := by
    rw [CCheckQueue.batch_toNat, ← share, queue_eq, ← entering]
    simp only [stage.nIdle, stage.nTotal, stage.nBatchSize]
    have small := i.isLt
    rw [Nat.mod_eq_of_lt (a := i + 1 + 0 + 1) (by omega)]
    rfl
  have bounds := CCheckQueue.batch_bounds (queue_eq.symm ▸ some)
  rw [batch_eq, queue_eq] at bounds
  refine ⟨system.take (.worker i) shared, ⟨?_, ?_, ?_, ?_, ?_, ?_, ?_, ?_, ?_⟩, rfl⟩
  · exact stage.runs.tail ⟨_, step⟩
  · rw [← batch_eq, ← queue_eq]
    rfl
  · rw [← entering]
    exact stage.nIdle
  · rw [← entering]
    exact congrArg (· + 1) stage.nTotal
  · rw [← entering]
    exact stage.fAllOk
  · rw [← entering]
    exact stage.nBatchSize
  · have lengths : taken + batch + (queue.drop batch).length = taken + queue.length := by
      rw [List.length_drop]
      omega
    rw [lengths, ← stage.todo, ← entering]
    rfl
  · simpa [CheckSystem.take, place] using stage.master
  · intro j later
    have other : j ≠ i := by
      rintro rfl
      omega
    simpa [CheckSystem.take, place, other] using stage.workers j (by omega)

end Stage

theorem good_checks (n : Nat) : ∃ vChecks : List Bool, vChecks.length = n ∧ ∀ c ∈ vChecks, c = true :=
  ⟨List.replicate n true, List.length_replicate, fun _ => List.eq_of_mem_replicate⟩

/-- With `2 ^ 32` checks in the hands of three workers `nTodo` is zero once the queue is empty. -/
theorem checkQueue_wraps : ∃ system next : CheckSystem 3 Bool,
    Relation.ReflTransGen (Moves id) (initial 3 Bool 4294967295) system ∧
      system.step id (.critical .master) = some next ∧ next.position .master = .returned true ∧
      false ∈ system.added := by
  obtain ⟨first, first_length, first_good⟩ := good_checks 4294967293
  obtain ⟨second, second_length, second_good⟩ := good_checks 2147483648
  obtain ⟨third, third_length, third_good⟩ := good_checks 6
  have start : Stage (0 : Fin 3) 0 [] (initial 3 Bool 4294967295) :=
    ⟨.refl, rfl, rfl, rfl, rfl, rfl, rfl, rfl, fun _ _ => rfl⟩
  obtain ⟨system, stage, added⟩ := start.add (first ++ [false])
  obtain ⟨system, stage, added₀⟩ := stage.take (by simp) 2147483647 (by simp [first_length])
  have failing : false ∈ system.added := by simp [added₀, added]
  obtain ⟨system, stage, added₁⟩ := stage.add second
  obtain ⟨system, stage, added₂⟩ := Stage.take (i := 1) stage (by
    intro none
    have empty := congrArg List.length none
    simp [first_length, second_length] at empty) 1431655765 (by simp [first_length, second_length])
  obtain ⟨system, stage, added₃⟩ := stage.add third
  obtain ⟨system, stage, added₄⟩ := Stage.take (i := 2) stage (by
    intro none
    have empty := congrArg List.length none
    simp [first_length, second_length, third_length] at empty) 715827884
    (by simp [first_length, second_length, third_length])
  have length : system.shared.queue.length = 2147483652 := by
    rw [stage.queue_eq]
    simp [first_length, second_length, third_length]
  have good : ∀ c ∈ system.shared.queue, id c = true := by
    intro c member
    rw [stage.queue_eq] at member
    have member := List.mem_of_mem_drop member
    rcases List.mem_append.mp member with inside | member
    · exact third_good c (List.mem_reverse.mp inside)
    · rcases List.mem_append.mp (List.mem_of_mem_drop member) with inside | member
      · exact second_good c (List.mem_reverse.mp inside)
      · simp only [List.append_nil, List.reverse_append, List.reverse_singleton,
          List.singleton_append, List.drop_succ_cons] at member
        exact first_good c (List.mem_reverse.mp (List.mem_of_mem_drop member))
  have some : system.shared.queue ≠ [] := by
    intro none
    simp [none] at length
  have step : system.step id (.critical .master) = _ := critical_outside stage.master some
  generalize entering : ({ system.shared with nTotal := system.shared.nTotal + 1 } : CCheckQueue Bool) =
    shared at step
  have queue_eq : shared.queue = system.shared.queue := by rw [← entering]
  have bounds := CCheckQueue.batch_bounds (queue_eq.symm ▸ some)
  rw [queue_eq] at bounds
  have todo : (system.take .master shared).shared.nTodo = shared.batch +
      UInt32.ofNat (system.take .master shared).shared.queue.length := by
    have wrapped : system.shared.nTodo = UInt32.ofNat system.shared.queue.length := by
      rw [stage.todo, ← stage.queue_eq, UInt32.ofNat_add]
      exact zero_add _
    have unchanged : (system.take .master shared).shared.nTodo = system.shared.nTodo := by
      rw [← entering]
      rfl
    have rest : (system.take .master shared).shared.queue.length =
        system.shared.queue.length - shared.batch.toNat := by
      rw [← queue_eq]
      exact List.length_drop
    rw [unchanged, wrapped, rest]
    conv_lhs => rw [← Nat.add_sub_of_le bounds.2, UInt32.ofNat_add, UInt32.ofNat_toNat]
  have nonzero : shared.batch ≠ 0 := by
    intro zero
    rw [zero] at bounds
    simp at bounds
  have fAllOk : shared.fAllOk = true := by
    rw [← entering]
    exact stage.fAllOk
  have working : (system.take .master shared).position .master =
      .working shared.batch (shared.queue.take shared.batch.toNat) true := by
    simp [CheckSystem.take, place, fAllOk]
  obtain ⟨last, next, runs, same, returns⟩ := drain todo fAllOk nonzero working
    (fun c member => good c (queue_eq ▸ List.mem_of_mem_take member))
    (fun c member => good c (queue_eq ▸ List.mem_of_mem_drop member))
  refine ⟨last, next, stage.runs.trans (Relation.ReflTransGen.head ⟨_, step⟩ runs), returns.1, returns.2, ?_⟩
  rw [same]
  change false ∈ system.added
  simp [added₄, added₃, added₂, added₁, failing]

end CheckSystem

end BitCrystal
