import BitCrystal.Data.Outcome

namespace BitCrystal.Data

/-! Computations that record events and may fail.  The events up to a failure
are kept; `result` and `events` are what the rest of a proof looks at. -/

structure Logged (ε ω α : Type) where
  events : List ω
  result : Except ε α

namespace Logged

variable {ε ω α β : Type}

instance : Monad (Logged ε ω) where
  pure value := ⟨[], .ok value⟩
  bind step next :=
    match step.result with
    | .ok value => ⟨step.events ++ (next value).events, (next value).result⟩
    | .error reason => ⟨step.events, .error reason⟩

/-- A computation without events. -/
def lift (computation : Except ε α) : Logged ε ω α := ⟨[], computation⟩

def emit (event : ω) : Logged ε ω Unit := ⟨[event], .ok ()⟩

def mapError (recover : ε → ε) (computation : Logged ε ω α) : Logged ε ω α where
  events := computation.events
  result :=
    match computation.result with
    | .ok value => .ok value
    | .error reason => .error (recover reason)

def mapEvents {ω' : Type} (relabel : ω → ω') (computation : Logged ε ω α) : Logged ε ω' α where
  events := computation.events.map relabel
  result := computation.result

@[simp] theorem result_pure (value : α) : (pure value : Logged ε ω α).result = .ok value := rfl

@[simp] theorem events_pure (value : α) : (pure value : Logged ε ω α).events = [] := rfl

@[simp] theorem result_lift (computation : Except ε α) :
    (lift computation : Logged ε ω α).result = computation := rfl

@[simp] theorem events_lift (computation : Except ε α) :
    (lift computation : Logged ε ω α).events = [] := rfl

@[simp] theorem result_emit (event : ω) : (emit event : Logged ε ω Unit).result = .ok () := rfl

@[simp] theorem events_emit (event : ω) : (emit event : Logged ε ω Unit).events = [event] := rfl

@[simp] theorem events_mapError (recover : ε → ε) (computation : Logged ε ω α) :
    (computation.mapError recover).events = computation.events := rfl

@[simp] theorem result_mapEvents {ω' : Type} (relabel : ω → ω') (computation : Logged ε ω α) :
    (computation.mapEvents relabel).result = computation.result := rfl

@[simp] theorem events_mapEvents {ω' : Type} (relabel : ω → ω') (computation : Logged ε ω α) :
    (computation.mapEvents relabel).events = computation.events.map relabel := rfl

@[simp] theorem result_bind (step : Logged ε ω α) (next : α → Logged ε ω β) :
    (step >>= next).result = step.result >>= fun value => (next value).result := by
  cases run : step.result with
  | ok value => simp [bind, Except.bind, run]
  | error reason => simp [bind, Except.bind, run]

theorem events_bind_of_ok {step : Logged ε ω α} {next : α → Logged ε ω β} {value : α}
    (run : step.result = .ok value) :
    (step >>= next).events = step.events ++ (next value).events := by
  simp [bind, run]

theorem events_bind_of_error {step : Logged ε ω α} {next : α → Logged ε ω β} {reason : ε}
    (run : step.result = .error reason) : (step >>= next).events = step.events := by
  simp [bind, run]

theorem mapError_eq_ok {recover : ε → ε} {computation : Logged ε ω α} {value : α} :
    (computation.mapError recover).result = .ok value ↔ computation.result = .ok value := by
  simp only [mapError]
  cases computation.result with
  | ok value => simp
  | error reason => simp

theorem events_bind_le {step : Logged ε ω α} {next : α → Logged ε ω β} {m n : Nat}
    (first : step.events.length ≤ m)
    (rest : ∀ value, step.result = .ok value → (next value).events.length ≤ n) :
    (step >>= next).events.length ≤ m + n := by
  cases run : step.result with
  | ok value =>
      rw [events_bind_of_ok run, List.length_append]
      exact Nat.add_le_add first (rest value run)
  | error reason =>
      rw [events_bind_of_error run]
      omega

theorem countP_bind_le {step : Logged ε ω α} {next : α → Logged ε ω β} {kind : ω → Bool} {m n : Nat}
    (first : step.events.countP kind ≤ m)
    (rest : ∀ value, step.result = .ok value → (next value).events.countP kind ≤ n) :
    (step >>= next).events.countP kind ≤ m + n := by
  cases run : step.result with
  | ok value =>
      rw [events_bind_of_ok run, List.countP_append]
      exact Nat.add_le_add first (rest value run)
  | error reason =>
      rw [events_bind_of_error run]
      omega

theorem events_lift_bind_le {computation : Except ε α} {next : α → Logged ε ω β} {n : Nat}
    (rest : ∀ value, computation = .ok value → (next value).events.length ≤ n) :
    (lift computation >>= next).events.length ≤ n := by
  have whole : (lift computation >>= next).events.length ≤ 0 + n := events_bind_le (by simp) rest
  omega

/-! ## Two runs -/

/-- The other computation has the same result, as long as the events of this one are good. -/
def Mirrors (good : ω → Prop) (other computation : Logged ε ω α) : Prop :=
  (∀ event ∈ computation.events, good event) → other.result = computation.result

namespace Mirrors

variable {good : ω → Prop} {other computation : Logged ε ω α}

theorem refl (computation : Logged ε ω α) : Mirrors good computation computation := fun _ => rfl

theorem bind {next next' : α → Logged ε ω β} (first : Mirrors good other computation)
    (rest : ∀ value, computation.result = .ok value → Mirrors good (next' value) (next value)) :
    Mirrors good (other >>= next') (computation >>= next) := by
  intro events
  cases run : computation.result with
  | ok value =>
      rw [events_bind_of_ok run] at events
      have same := first fun event member => events event (List.mem_append_left _ member)
      have later := rest value run fun event member => events event (List.mem_append_right _ member)
      rw [result_bind, result_bind, same, run, ok_bind, ok_bind, later]
  | error reason =>
      rw [events_bind_of_error run] at events
      rw [result_bind, result_bind, first events, run]
      rfl

/-- Both begin with the same computation without events. -/
theorem lift_bind {before : Except ε α} {next next' : α → Logged ε ω β}
    (rest : ∀ value, Mirrors good (next' value) (next value)) :
    Mirrors good (lift before >>= next') (lift before >>= next) :=
  (refl _).bind fun value _ => rest value

theorem ite {condition : Prop} [Decidable condition] {other' computation' : Logged ε ω α}
    (first : Mirrors good other computation) (second : Mirrors good other' computation') :
    Mirrors good (if condition then other else other') (if condition then computation else computation') := by
  split
  · exact first
  · exact second

theorem mapError (recover : ε → ε) (mirrors : Mirrors good other computation) :
    Mirrors good (other.mapError recover) (computation.mapError recover) := by
  intro events
  simp only [Logged.mapError, mirrors events]

theorem mapEvents {ω' : Type} {good' : ω' → Prop} {relabel : ω → ω'} (keeps : ∀ event, good' (relabel event) → good event)
    (mirrors : Mirrors good other computation) :
    Mirrors good' (other.mapEvents relabel) (computation.mapEvents relabel) :=
  fun events => mirrors fun event member => keeps event (events _ (List.mem_map_of_mem member))

end Mirrors

end Logged

end BitCrystal.Data
