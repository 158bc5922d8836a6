import Mathlib.Logic.Basic
import Mathlib.Tactic.Common

namespace BitCrystal.Data

/-! Rules for computations in `Except` that reject their input at one of many
early returns.  `bind_eq_ok` opens a successful run step by step; `Sat` is the
two-sided judgement used when the failures matter as well. -/

/-- Stop with `reason` unless the condition holds. -/
def require {ε : Type} (condition : Prop) [Decidable condition] (reason : ε) : Except ε Unit :=
  if condition then .ok () else .error reason

/-- The value that must be present, or the failure its absence causes. -/
def expect {ε α : Type} (value : Option α) (reason : ε) : Except ε α :=
  match value with
  | some present => .ok present
  | none => .error reason

variable {ε α β : Type}

@[simp] theorem require_eq_ok {condition : Prop} [Decidable condition] {reason : ε} {done : Unit} :
    require condition reason = .ok done ↔ condition := by
  unfold require
  split <;> simp_all

@[simp] theorem expect_eq_ok {value : Option α} {reason : ε} {present : α} :
    expect value reason = .ok present ↔ value = some present := by
  cases value <;> simp [expect]

@[simp] theorem bind_eq_ok {step : Except ε α} {next : α → Except ε β} {result : β} :
    (step >>= next) = .ok result ↔ ∃ value, step = .ok value ∧ next value = .ok result := by
  cases step with
  | error reason => simp [bind, Except.bind]
  | ok value => simp [bind, Except.bind]

@[simp] theorem pure_eq_ok {value result : α} :
    (pure value : Except ε α) = .ok result ↔ value = result := by
  simp [pure, Except.pure]

@[simp] theorem ok_bind {value : α} {next : α → Except ε β} :
    ((.ok value : Except ε α) >>= next) = next value := rfl

@[simp] theorem error_bind {reason : ε} {next : α → Except ε β} :
    ((.error reason : Except ε α) >>= next) = .error reason := rfl

theorem require_of {condition : Prop} [Decidable condition] {reason : ε} (holds : condition) :
    require condition reason = .ok () :=
  require_eq_ok.mpr holds

theorem ok_of_isOk {computation : Except ε α} (run : computation.isOk = true) :
    ∃ value, computation = .ok value := by
  cases computation with
  | ok value => exact ⟨value, rfl⟩
  | error reason => contradiction

theorem ok_of_map_eq_ok {computation : Except ε α} {f : α → β} {result : β}
    (run : computation.map f = .ok result) : ∃ value, computation = .ok value ∧ f value = result := by
  cases computation with
  | ok value => exact ⟨value, rfl, Except.ok.inj run⟩
  | error reason => contradiction

/-- What a computation guarantees of its result and of its failure. -/
def Sat (computation : Except ε α) (post : α → Prop) (fault : ε → Prop) : Prop :=
  match computation with
  | .ok value => post value
  | .error reason => fault reason

instance decidableSat {post : α → Prop} {fault : ε → Prop} [DecidablePred post] [DecidablePred fault]
    (computation : Except ε α) : Decidable (Sat computation post fault) :=
  match computation with
  | .ok value => inferInstanceAs (Decidable (post value))
  | .error reason => inferInstanceAs (Decidable (fault reason))

namespace Sat

variable {post : α → Prop} {fault : ε → Prop} {computation : Except ε α}

theorem of_ok (sat : Sat computation post fault) {value : α}
    (run : computation = .ok value) : post value := by
  simpa [Sat, run] using sat

theorem of_error (sat : Sat computation post fault) {reason : ε}
    (run : computation = .error reason) : fault reason := by
  simpa [Sat, run] using sat

theorem weaken {post' : α → Prop} (sat : Sat computation post fault)
    (weaker : ∀ value, post value → post' value) : Sat computation post' fault := by
  cases computation with
  | ok value => exact weaker value sat
  | error reason => exact sat

theorem weaken_fault {fault' : ε → Prop} (sat : Sat computation post fault)
    (weaker : ∀ reason, fault reason → fault' reason) : Sat computation post fault' := by
  cases computation with
  | ok value => exact sat
  | error reason => exact weaker reason sat

theorem with_run (sat : Sat computation post fault) :
    Sat computation (fun value => computation = .ok value ∧ post value) fault := by
  cases computation with
  | ok value => exact ⟨rfl, sat⟩
  | error reason => exact sat

theorem bind {next : α → Except ε β} {result : β → Prop}
    (first : Sat computation post fault)
    (rest : ∀ value, post value → Sat (next value) result fault) :
    Sat (computation >>= next) result fault := by
  cases computation with
  | ok value => exact rest value first
  | error reason => exact first

theorem after {result : β → Prop} {next : α → Except ε β}
    (rest : ∀ value, Sat (next value) result fun _ => True) :
    Sat (computation >>= next) result fun _ => True := by
  cases computation with
  | ok value => exact rest value
  | error reason => trivial

theorem require {condition : Prop} [Decidable condition] {reason : ε}
    (failing : fault reason) : Sat (require condition reason) (fun _ => condition) fault := by
  unfold Data.require
  split
  · assumption
  · exact failing

theorem expect {value : Option α} {reason : ε} (failing : fault reason) :
    Sat (expect value reason) (fun present => value = some present) fault := by
  cases value with
  | none => exact failing
  | some present => exact rfl

theorem of_pure {value : α} (holds : post value) : Sat (pure value) post fault :=
  holds

theorem ite {condition : Prop} [Decidable condition] {other : Except ε α}
    (positive : condition → Sat computation post fault)
    (negative : ¬ condition → Sat other post fault) :
    Sat (if condition then computation else other) post fault := by
  split
  · exact positive ‹_›
  · exact negative ‹_›

theorem forM {check : α → Except ε Unit} {elements : List α}
    (each : ∀ element ∈ elements, Sat (check element) (fun _ => True) fault) :
    Sat (ForM.forM elements check) (fun _ => True) fault := by
  induction elements with
  | nil => trivial
  | cons element rest ih =>
      rw [List.forM_cons]
      exact (each element List.mem_cons_self).bind fun _ _ =>
        ih fun other member => each other (List.mem_cons_of_mem _ member)

theorem mapM {convert : α → Except ε β} {elements : List α}
    (each : ∀ element ∈ elements, Sat (convert element) (fun _ => True) fault) :
    Sat (elements.mapM convert) (fun _ => True) fault := by
  induction elements with
  | nil => trivial
  | cons element rest ih =>
      rw [List.mapM_cons]
      exact (each element List.mem_cons_self).bind fun _ _ =>
        (ih fun other member => each other (List.mem_cons_of_mem _ member)).bind fun _ _ => of_pure trivial

theorem foldlM {σ : Type} {body : σ → α → Except ε σ} (invariant : σ → List α → Prop)
    (preserved : ∀ state element rest, invariant state (element :: rest) →
      Sat (body state element) (fun next => invariant next rest) fault)
    (elements : List α) (state : σ) (initial : invariant state elements) :
    Sat (elements.foldlM body state) (fun last => invariant last []) fault := by
  induction elements generalizing state with
  | nil => exact initial
  | cons element rest ih =>
      rw [List.foldlM_cons]
      exact (preserved state element rest initial).bind fun next kept => ih next kept

end Sat

/-- The first computation succeeds exactly where the second does with a result that the
relation allows. -/
def Matches {α β : Type} (first : Except ε α) (second : Except ε β) (relation : β → α → Prop) : Prop :=
  ∀ value, first = .ok value ↔ ∃ other, second = .ok other ∧ relation other value

theorem Matches.after {α β γ : Type} {step : Except ε γ} {first : γ → Except ε α} {second : γ → Except ε β}
    {relation : β → α → Prop} (rest : ∀ value, Matches (first value) (second value) relation) :
    Matches (step >>= first) (step >>= second) relation := by
  intro value
  cases step with
  | error reason => simp
  | ok between => exact rest between value

theorem foldlM_cons_eq_ok {σ : Type} {body : σ → α → Except ε σ} {element : α} {rest : List α}
    {state last : σ} :
    (element :: rest).foldlM body state = .ok last ↔
      ∃ next, body state element = .ok next ∧ rest.foldlM body next = .ok last := by
  rw [List.foldlM_cons, bind_eq_ok]

theorem foldlM_congr {σ : Type} {body other : σ → α → Except ε σ} {elements : List α}
    (same : ∀ element ∈ elements, ∀ state, body state element = other state element) (state : σ) :
    elements.foldlM body state = elements.foldlM other state := by
  induction elements generalizing state with
  | nil => rfl
  | cons element rest ih =>
      rw [List.foldlM_cons, List.foldlM_cons, same element List.mem_cons_self]
      cases other state element with
      | error reason => rfl
      | ok next => exact ih (fun later member => same later (List.mem_cons_of_mem element member)) next

theorem mapM_congr {convert other : α → Except ε β} {elements : List α}
    (same : ∀ element ∈ elements, convert element = other element) :
    elements.mapM convert = elements.mapM other := by
  induction elements with
  | nil => rfl
  | cons element rest ih =>
      rw [List.mapM_cons, List.mapM_cons, same element List.mem_cons_self,
        ih fun later member => same later (List.mem_cons_of_mem element member)]

theorem mapM_length {convert : α → Except ε β} {elements : List α} {results : List β}
    (run : elements.mapM convert = .ok results) : results.length = elements.length := by
  induction elements generalizing results with
  | nil =>
      cases run
      rfl
  | cons element rest ih =>
      rw [List.mapM_cons] at run
      simp only [bind_eq_ok, pure_eq_ok] at run
      obtain ⟨result, -, others, remaining, rfl⟩ := run
      simp [ih remaining]

theorem foldlM_append_eq_ok {σ : Type} {body : σ → α → Except ε σ} {pre post : List α} {state last : σ} :
    (pre ++ post).foldlM body state = .ok last ↔
      ∃ between, pre.foldlM body state = .ok between ∧ post.foldlM body between = .ok last := by
  rw [List.foldlM_append, bind_eq_ok]

/-- A relation that every step of a loop establishes and that composes holds
between the two ends of a successful loop. -/
theorem foldlM_relation {σ : Type} {body : σ → α → Except ε σ} (relation : List α → σ → σ → Prop)
    (nothing : ∀ state, relation [] state state)
    (oneMore : ∀ element rest state next last, body state element = .ok next →
      relation rest next last → relation (element :: rest) state last)
    {elements : List α} {state last : σ} (run : elements.foldlM body state = .ok last) :
    relation elements state last := by
  induction elements generalizing state with
  | nil =>
      cases run
      exact nothing _
  | cons element rest ih =>
      obtain ⟨next, step, remaining⟩ := foldlM_cons_eq_ok.mp run
      exact oneMore element rest state next last step (ih remaining)

/-- Where the first computation succeeds, the second one has the same result or one of the given failures. -/
def Follows (fault : ε → Prop) (first second : Except ε α) : Prop :=
  ∀ value, first = .ok value → Sat second (· = value) fault

namespace Follows

variable {fault : ε → Prop}

theorem refl (computation : Except ε α) : Follows fault computation computation := by
  intro value run
  rw [run]
  rfl

theorem bind {first second : Except ε α} {next other : α → Except ε β} (start : Follows fault first second)
    (rest : ∀ value, Follows fault (next value) (other value)) :
    Follows fault (first >>= next) (second >>= other) := by
  intro result run
  obtain ⟨value, ran, remaining⟩ := bind_eq_ok.mp run
  refine (start value ran).bind fun same equal => ?_
  rw [equal]
  exact rest value result remaining

/-- A test that both make; the second one may fail it. -/
theorem require {condition other : Prop} [Decidable condition] [Decidable other] {reason reason' : ε}
    (failing : fault reason') :
    Follows fault (require condition reason) (require other reason') := by
  intro value _
  exact (Sat.require failing).weaken fun _ _ => rfl

theorem foldlM {σ : Type} {body other : σ → α → Except ε σ} {elements : List α}
    (each : ∀ element ∈ elements, ∀ state, Follows fault (body state element) (other state element)) (state : σ) :
    Follows fault (elements.foldlM body state) (elements.foldlM other state) := by
  induction elements generalizing state with
  | nil => exact refl _
  | cons element rest ih =>
      rw [List.foldlM_cons, List.foldlM_cons]
      exact (each element List.mem_cons_self state).bind fun next =>
        ih (fun later member => each later (List.mem_cons_of_mem element member)) next

theorem mapM {convert other : α → Except ε β} {elements : List α}
    (each : ∀ element ∈ elements, Follows fault (convert element) (other element)) :
    Follows fault (elements.mapM convert) (elements.mapM other) := by
  induction elements with
  | nil => exact refl _
  | cons element rest ih =>
      rw [List.mapM_cons, List.mapM_cons]
      exact (each element List.mem_cons_self).bind fun result =>
        (ih fun later member => each later (List.mem_cons_of_mem element member)).bind fun _ => refl _

end Follows

end BitCrystal.Data
