namespace BitCrystal.Data

/-! # Computations whose state outlives their failures -/

/-- A computation over a state, which it also leaves behind when it fails. -/
def Stateful (σ ε α : Type) : Type := σ → Except ε α × σ

namespace Stateful

variable {σ ε α β : Type}

def fail (reason : ε) : Stateful σ ε α := fun s => (.error reason, s)

def get : Stateful σ ε σ := fun s => (.ok s, s)

def modify (change : σ → σ) : Stateful σ ε Unit := fun s => (.ok (), change s)

instance : Monad (Stateful σ ε) where
  pure value := fun s => (.ok value, s)
  bind first next := fun s =>
    match first s with
    | (.ok value, after) => next value after
    | (.error reason, after) => (.error reason, after)

/-- What holds of the result and the state after a success, and of the state after a failure. -/
def Settles (run : Stateful σ ε α) (s : σ) (returns : α → σ → Prop) (fails : σ → Prop) : Prop :=
  match run s with
  | (.ok value, after) => returns value after
  | (.error _, after) => fails after

variable {s : σ} {returns : α → σ → Prop} {fails : σ → Prop}

theorem Settles.pure {value : α} (holds : returns value s) :
    Settles (Pure.pure value : Stateful σ ε α) s returns fails := holds

theorem Settles.fail {reason : ε} (holds : fails s) : Settles (Stateful.fail reason : Stateful σ ε α) s returns fails :=
  holds

theorem Settles.get {returns : σ → σ → Prop} (holds : returns s s) :
    Settles (Stateful.get : Stateful σ ε σ) s returns fails := holds

theorem Settles.modify {returns : Unit → σ → Prop} {change : σ → σ} (holds : returns () (change s)) :
    Settles (Stateful.modify change : Stateful σ ε Unit) s returns fails := holds

theorem Settles.bind {first : Stateful σ ε β} {next : β → Stateful σ ε α}
    (begins : Settles first s (fun value after => Settles (next value) after returns fails) fails) :
    Settles (first >>= next) s returns fails := by
  unfold Settles at begins ⊢
  show match (match first s with
    | (.ok value, after) => next value after
    | (.error reason, after) => (.error reason, after)) with
    | (.ok value, after) => returns value after
    | (.error _, after) => fails after
  cases ran : first s with
  | mk result after =>
      rw [ran] at begins
      cases result with
      | ok value => exact begins
      | error reason => exact begins

theorem Settles.mono {returns' : α → σ → Prop} {fails' : σ → Prop} {run : Stateful σ ε α}
    (ends : Settles run s returns fails) (weaker : ∀ value after, returns value after → returns' value after)
    (failing : ∀ after, fails after → fails' after) : Settles run s returns' fails' := by
  unfold Settles at ends ⊢
  cases ran : run s with
  | mk result after =>
      rw [ran] at ends
      cases result with
      | ok value => exact weaker value after ends
      | error reason => exact failing after ends

end Stateful

end BitCrystal.Data
