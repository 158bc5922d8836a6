import Mathlib.Data.List.MinMax
import Mathlib.Data.List.Nodup

namespace BitCrystal.Data

/-! # The first turns of a random shuffle

In its turn, the entry at place `i` changes places with the one at `pick i`. -/

variable {α β : Type*} {pick : Nat → Nat} {turns i : Nat} {xs : List α}

def exchange (xs : List α) (p i : Nat) : List α :=
  match xs[p]?, xs[i]? with
  | some x, some y => (xs.set p y).set i x
  | _, _ => xs

def shuffle (pick : Nat → Nat) : Nat → Nat → List α → List α
  | 0, _, xs => xs
  | turns + 1, i, xs => shuffle pick turns (i + 1) (exchange xs (pick i) i)

/-- The entries that are drawn, with the places where they are found. -/
def draws (pick : Nat → Nat) : Nat → Nat → List α → List (α × Nat)
  | 0, _, _ => []
  | turns + 1, i, xs =>
      match xs[pick i]? with
      | none => []
      | some x => (x, pick i) :: draws pick turns (i + 1) (exchange xs (pick i) i)

def PicksFrom (pick : Nat → Nat) (turns i length : Nat) : Prop :=
  ∀ t, i ≤ t → t < i + turns → t ≤ pick t ∧ pick t < length

theorem PicksFrom.next {length : Nat} (picks : PicksFrom pick (turns + 1) i length) :
    PicksFrom pick turns (i + 1) length := by
  intro t later before
  exact picks t (by omega) (by omega)

theorem PicksFrom.first {length : Nat} (picks : PicksFrom pick (turns + 1) i length) :
    i ≤ pick i ∧ pick i < length :=
  picks i le_rfl (by omega)

/-! ## One turn -/

theorem exchange_eq {p : Nat} (here : p < xs.length) (there : i < xs.length) :
    exchange xs p i = (xs.set p xs[i]).set i xs[p] := by
  rw [exchange, List.getElem?_eq_getElem here, List.getElem?_eq_getElem there]

@[simp] theorem length_exchange (xs : List α) (p i : Nat) : (exchange xs p i).length = xs.length := by
  unfold exchange
  split <;> simp

theorem exchange_perm (xs : List α) (p i : Nat) : (exchange xs p i).Perm xs := by
  by_cases here : p < xs.length
  · by_cases there : i < xs.length
    · rw [exchange_eq here there]
      exact List.set_set_perm here there
    · rw [exchange, List.getElem?_eq_none (Nat.not_lt.mp there)]
      cases xs[p]? <;> exact .refl xs
  · rw [exchange, List.getElem?_eq_none (Nat.not_lt.mp here)]

theorem exchange_getElem?_self {p : Nat} (here : p < xs.length) (there : i < xs.length) :
    (exchange xs p i)[i]? = xs[p]? := by
  rw [exchange_eq here there, List.getElem?_set_self (by simpa using there), List.getElem?_eq_getElem here]

theorem exchange_getElem?_before {p t : Nat} (before : t < i) (later : i ≤ p) :
    (exchange xs p i)[t]? = xs[t]? := by
  unfold exchange
  split
  · rw [List.getElem?_set_ne (by omega), List.getElem?_set_ne (by omega)]
  · rfl

/-! ## The shuffle -/

theorem shuffle_perm (pick : Nat → Nat) (turns i : Nat) (xs : List α) : (shuffle pick turns i xs).Perm xs := by
  induction turns generalizing i xs with
  | zero => exact .refl xs
  | succ turns ih => exact (ih (i + 1) _).trans (exchange_perm xs (pick i) i)

theorem shuffle_getElem?_before (picks : PicksFrom pick turns i xs.length) {t : Nat} (before : t < i) :
    (shuffle pick turns i xs)[t]? = xs[t]? := by
  induction turns generalizing i xs with
  | zero => rfl
  | succ turns ih =>
      rw [shuffle, ih (by simpa using picks.next) (by omega), exchange_getElem?_before before picks.first.1]

theorem shuffle_getElem?_drawn (picks : PicksFrom pick turns i xs.length) {t : Nat} (turn : t < turns) :
    (shuffle pick turns i xs)[i + t]? = (draws pick turns i xs)[t]?.map Prod.fst := by
  induction turns generalizing i xs t with
  | zero => omega
  | succ turns ih =>
      obtain ⟨later, within⟩ := picks.first
      have next : PicksFrom pick turns (i + 1) (exchange xs (pick i) i).length := by simpa using picks.next
      rw [shuffle, draws, List.getElem?_eq_getElem within]
      cases t with
      | zero =>
          change (shuffle pick turns (i + 1) (exchange xs (pick i) i))[i]? = some xs[pick i]
          rw [shuffle_getElem?_before next (Nat.lt_succ_self i), exchange_getElem?_self within (by omega),
            List.getElem?_eq_getElem within]
      | succ t =>
          have rest := ih next (show t < turns by omega)
          rw [show i + (t + 1) = i + 1 + t by omega, rest]
          rfl

theorem draws_getElem? (picks : PicksFrom pick turns i xs.length) {t : Nat} (turn : t < turns) :
    ∃ x, (draws pick turns i xs)[t]? = some (x, pick (i + t)) := by
  induction turns generalizing i xs t with
  | zero => omega
  | succ turns ih =>
      rw [draws, List.getElem?_eq_getElem picks.first.2]
      cases t with
      | zero => exact ⟨_, rfl⟩
      | succ t =>
          have next : PicksFrom pick turns (i + 1) (exchange xs (pick i) i).length := by simpa using picks.next
          obtain ⟨x, drawn⟩ := ih next (show t < turns by omega)
          exact ⟨x, by rw [show i + (t + 1) = i + 1 + t by omega]; exact drawn⟩

theorem length_draws (picks : PicksFrom pick turns i xs.length) : (draws pick turns i xs).length = turns := by
  induction turns generalizing i xs with
  | zero => rfl
  | succ turns ih =>
      rw [draws, List.getElem?_eq_getElem picks.first.2]
      exact congrArg Nat.succ (ih (by simpa using picks.next))

theorem mem_draws_iff (distinct : xs.Nodup) (picks : PicksFrom pick turns 0 xs.length) {p : Nat} {x : α}
    (here : (shuffle pick turns 0 xs)[p]? = some x) :
    x ∈ (draws pick turns 0 xs).map Prod.fst ↔ (draws pick turns 0 xs)[p]?.map Prod.fst = some x := by
  constructor
  · intro member
    obtain ⟨t, within, drawn⟩ := List.getElem_of_mem member
    rw [List.length_map, length_draws picks] at within
    have place := shuffle_getElem?_drawn picks within
    have atTurn : (draws pick turns 0 xs)[t]?.map Prod.fst = some x := by
      rw [← List.getElem?_map, List.getElem?_eq_getElem (by simpa [length_draws picks] using within), drawn]
    rw [atTurn, Nat.zero_add] at place
    have unique : (shuffle pick turns 0 xs).Nodup := (shuffle_perm pick turns 0 xs).nodup_iff.mpr distinct
    have same : t = p := by
      obtain ⟨inside, atT⟩ := List.getElem?_eq_some_iff.mp place
      obtain ⟨inside', atP⟩ := List.getElem?_eq_some_iff.mp here
      exact (unique.getElem_inj_iff).mp (atT.trans atP.symm)
    rw [← same, atTurn]
  · intro drawn
    rw [← List.getElem?_map] at drawn
    exact List.mem_of_getElem? drawn

/-! ## The least of the entries that are drawn -/

section

variable [LinearOrder β] (key : α → β)

/-- The entry of turn `t` is the first of the least ones. -/
def FirstLeast (drawn : List (α × Nat)) (t : Nat) (least : α × Nat) : Prop :=
  drawn[t]? = some least ∧ ∀ u other, drawn[u]? = some other →
    key least.1 ≤ key other.1 ∧ (u < t → key least.1 < key other.1)

variable {key}

theorem FirstLeast.unique {drawn : List (α × Nat)} {t u : Nat} {least other : α × Nat}
    (first : FirstLeast key drawn t least) (first' : FirstLeast key drawn u other) : t = u := by
  have forth := first.2 u other first'.1
  have back := first'.2 t least first.1
  rcases Nat.lt_trichotomy t u with less | same | more
  · exact absurd (back.2 less) (not_lt.mpr forth.1)
  · exact same
  · exact absurd (forth.2 more) (not_lt.mpr back.1)

theorem exists_first_of_argmin {γ : Type*} {f : γ → β} {entries : List γ} {least : γ}
    (found : entries.argmin f = some least) :
    ∃ t : Nat, entries[t]? = some least ∧ ∀ (u : Nat) (other : γ), entries[u]? = some other →
      f least ≤ f other ∧ (u < t → f least < f other) := by
  classical
  obtain ⟨member, least_le, first⟩ := List.argmin_eq_some_iff.mp found
  refine ⟨entries.idxOf least, List.getElem?_idxOf member, ?_⟩
  intro u other place
  have inside : other ∈ entries := List.mem_of_getElem? place
  refine ⟨least_le other inside, ?_⟩
  intro before
  by_contra notLess
  have early := first other inside (not_lt.mp notLess)
  obtain ⟨within, rfl⟩ := List.getElem?_eq_some_iff.mp place
  have differs := List.not_of_lt_findIdx (lt_of_lt_of_le before early)
  exact Bool.false_ne_true (differs.symm.trans (beq_self_eq_true _))

theorem FirstLeast.of_argmin {drawn : List (α × Nat)} {least : α × Nat}
    (found : drawn.argmin (key ∘ Prod.fst) = some least) : ∃ t, FirstLeast key drawn t least :=
  exists_first_of_argmin found

/-- The place where the least entry was found holds an entry as small once the shuffle is over
only if that place has had a turn and its entry is as small. -/
def LeastInPlace (key : α → β) (drawn : List (α × Nat)) : Prop :=
  ∃ t least other, FirstLeast key drawn t least ∧ drawn[least.2]? = some other ∧ key other.1 ≤ key least.1

theorem holds_least_iff (distinct : xs.Nodup) (picks : PicksFrom pick turns 0 xs.length) :
    (∃ least x, (draws pick turns 0 xs).argmin (key ∘ Prod.fst) = some least ∧
        (shuffle pick turns 0 xs)[least.2]? = some x ∧ x ∈ (draws pick turns 0 xs).map Prod.fst ∧
        ∀ y ∈ (draws pick turns 0 xs).map Prod.fst, key x ≤ key y) ↔
      LeastInPlace key (draws pick turns 0 xs) := by
  constructor
  · rintro ⟨least, x, found, here, member, small⟩
    obtain ⟨t, first⟩ := FirstLeast.of_argmin found
    have drawn := (mem_draws_iff distinct picks here).mp member
    obtain ⟨other, there, rfl⟩ := Option.map_eq_some_iff.mp drawn
    exact ⟨t, least, other, first, there, small _ (List.mem_map_of_mem (List.mem_of_getElem? first.1))⟩
  · rintro ⟨t, least, other, first, there, small⟩
    have inside := List.mem_of_getElem? first.1
    cases found : (draws pick turns 0 xs).argmin (key ∘ Prod.fst) with
    | none => rw [List.argmin_eq_none.mp found] at inside; cases inside
    | some least' =>
        obtain ⟨t', first'⟩ := FirstLeast.of_argmin found
        obtain rfl : t' = t := FirstLeast.unique first' first
        obtain rfl : least' = least := Option.some.inj (first'.1.symm.trans first.1)
        obtain ⟨within, _⟩ := List.getElem?_eq_some_iff.mp there
        rw [length_draws picks] at within
        have place := shuffle_getElem?_drawn picks within
        rw [there, Nat.zero_add] at place
        refine ⟨least', other.1, rfl, place, List.mem_map_of_mem (List.mem_of_getElem? there), ?_⟩
        intro y member
        obtain ⟨entry, member', rfl⟩ := List.mem_map.mp member
        obtain ⟨u, _, drawn⟩ := List.getElem_of_mem member'
        exact small.trans (first.2 u entry (List.getElem?_eq_some_iff.mpr ⟨_, drawn⟩)).1

end

end BitCrystal.Data
