import Mathlib.Algebra.BigOperators.Group.Finset.Basic
import Mathlib.Algebra.BigOperators.Fin
import Mathlib.Data.UInt
import Mathlib.Tactic.DeriveFintype
import BitCrystal.Data.Outcome

namespace BitCrystal

/-! # The check queue

The threads of checkqueue.h share one mutex.  Between two critical sections a
thread waits or works on its own batch, and any thread may be the next to take the
mutex: a condition variable can wake a thread at any time. -/

structure CCheckQueue (T : Type) where
  /-- The last element first. -/
  queue : List T
  nIdle : Nat
  nTotal : Nat
  fAllOk : Bool
  nTodo : UInt32
  fQuit : Bool
  nBatchSize : UInt32

inductive Thread (nWorkers : Nat) where
  | master
  | worker (index : Fin nWorkers)
deriving DecidableEq, Fintype

/-- Where a thread is in Loop. -/
inductive Position (T : Type) where
  | outside
  /-- At `while (queue.empty())`, with the mutex. -/
  | locked
  | waiting
  | working (nNow : UInt32) (vChecks : List T) (fOk : Bool)
  | returned (fRet : Bool)

namespace CCheckQueue

variable {T : Type}

def create (nBatchSize : UInt32) : CCheckQueue T where
  queue := []
  nIdle := 0
  nTotal := 0
  fAllOk := true
  nTodo := 0
  fQuit := false
  nBatchSize := nBatchSize

def add (pqueue : CCheckQueue T) (vChecks : List T) : CCheckQueue T :=
  { pqueue with
    queue := vChecks.reverse ++ pqueue.queue
    nTodo := pqueue.nTodo + UInt32.ofNat vChecks.length }

/-- The clean-up of the previous loop run, or the first iteration. -/
def cleanUp (pqueue : CCheckQueue T) (nNow : UInt32) (fOk : Bool) : CCheckQueue T :=
  if nNow ≠ 0 then
    { pqueue with fAllOk := pqueue.fAllOk && fOk, nTodo := pqueue.nTodo - nNow }
  else { pqueue with nTotal := pqueue.nTotal + 1 }

/-- How many work units to process now. -/
def batch (pqueue : CCheckQueue T) : UInt32 :=
  max 1 (min pqueue.nBatchSize
    (UInt32.ofNat pqueue.queue.length / UInt32.ofNat (pqueue.nTotal + pqueue.nIdle + 1)))

/-- The rest of the critical section, and where it leaves the thread. -/
def proceed (pqueue : CCheckQueue T) (fMaster : Bool) : CCheckQueue T × Position T :=
  if pqueue.queue.isEmpty then
    if (fMaster || pqueue.fQuit) && pqueue.nTodo = 0 then
      ({ pqueue with
          nTotal := pqueue.nTotal - 1
          fAllOk := if fMaster then true else pqueue.fAllOk },
        .returned pqueue.fAllOk)
    else ({ pqueue with nIdle := pqueue.nIdle + 1 }, .waiting)
  else
    ({ pqueue with queue := pqueue.queue.drop pqueue.batch.toNat },
      .working pqueue.batch (pqueue.queue.take pqueue.batch.toNat) pqueue.fAllOk)

end CCheckQueue

namespace Position

variable {T : Type}

def vChecks : Position T → List T
  | .working _ vChecks _ => vChecks
  | _ => []

end Position

/-- The queue, the threads and what has happened to the checks since the previous Wait. -/
structure CheckSystem (nWorkers : Nat) (T : Type) where
  shared : CCheckQueue T
  position : Thread nWorkers → Position T
  added : List T
  handed : List (Thread nWorkers × T)
  skipped : List T

inductive CheckAction (nWorkers : Nat) (T : Type) where
  /-- The master adds a batch of checks. -/
  | add (vChecks : List T)
  /-- A thread comes to the next check of its batch. -/
  | check (thread : Thread nWorkers)
  /-- A thread runs through its next critical section. -/
  | critical (thread : Thread nWorkers)

namespace CheckSystem

variable {nWorkers : Nat} {T : Type}

def initial (nWorkers : Nat) (T : Type) (nBatchSize : UInt32) : CheckSystem nWorkers T where
  shared := CCheckQueue.create nBatchSize
  position _ := .outside
  added := []
  handed := []
  skipped := []

def place (system : CheckSystem nWorkers T) (thread : Thread nWorkers) (shared : CCheckQueue T)
    (position : Position T) : CheckSystem nWorkers T :=
  { system with shared, position := Function.update system.position thread position }

/-- A thread takes the mutex: it enters Loop, wakes up, or has gone through its batch. -/
def lock (system : CheckSystem nWorkers T) (thread : Thread nWorkers) :
    Option (CheckSystem nWorkers T) :=
  match system.position thread with
  | .outside => some (system.place thread (system.shared.cleanUp 0 true) .locked)
  | .locked => none
  | .waiting =>
      some (system.place thread { system.shared with nIdle := system.shared.nIdle - 1 } .locked)
  | .working nNow [] fOk => some (system.place thread (system.shared.cleanUp nNow fOk) .locked)
  | .working _ (_ :: _) _ => none
  | .returned _ =>
      -- only the master calls Wait again
      if thread = .master then some (system.place thread (system.shared.cleanUp 0 true) .locked)
      else none

/-- The thread goes on until it gives the mutex back. -/
def unlock (system : CheckSystem nWorkers T) (thread : Thread nWorkers) : CheckSystem nWorkers T :=
  match system.shared.proceed (thread = .master) with
  | (shared, .returned fRet) =>
      if thread = .master then
        { system.place thread shared (.returned fRet) with added := [], handed := [], skipped := [] }
      else system.place thread shared (.returned fRet)
  | (shared, position) =>
      { system.place thread shared position with
        handed := system.handed ++ position.vChecks.map (thread, ·) }

/-- One step; `check` is the operator of the verifications. -/
def step (check : T → Bool) (system : CheckSystem nWorkers T) :
    CheckAction nWorkers T → Option (CheckSystem nWorkers T)
  | .add vChecks =>
      match system.position .master with
      | .outside | .returned _ =>
          some { system with shared := system.shared.add vChecks, added := system.added ++ vChecks }
      | _ => none
  | .check thread =>
      match system.position thread with
      | .working nNow (first :: rest) fOk =>
          some
            { system with
              position := Function.update system.position thread
                (.working nNow rest (if fOk then check first else fOk))
              skipped := if fOk then system.skipped else first :: system.skipped }
      | _ => none
  | .critical thread => (system.lock thread).map fun locked => locked.unlock thread

/-- The states that are reached while fewer than `2 ^ 32` checks are added between two Waits. -/
inductive Reachable (check : T → Bool) : CheckSystem nWorkers T → Prop where
  | initial (nBatchSize : UInt32) : Reachable check (initial nWorkers T nBatchSize)
  | step {system next : CheckSystem nWorkers T} {action : CheckAction nWorkers T}
      (before : Reachable check system) (step : system.step check action = some next)
      (few : next.added.length < 2 ^ 32) : Reachable check next

end CheckSystem

end BitCrystal
