import BitCrystal.BloomRelevance
import BitCrystal.Interpreter

namespace BitCrystal

open Data

/-! # The filter that a peer has loaded -/

namespace CBloomFilter

variable {filter after : CBloomFilter}

/-- What the program does with a filter. -/
inductive Use where
  | insert (vKey : Bytes)
  | contains (vKey : Bytes)
  | isRelevantAndUpdate (tx : CTransaction) (hash : UInt256)

def use (filter : CBloomFilter) : Use → Except Failure CBloomFilter
  | .insert vKey => filter.insert vKey
  | .contains vKey => (filter.contains vKey).map fun _ => filter
  | .isRelevantAndUpdate tx hash => (filter.isRelevantAndUpdate tx hash).map Prod.fst

theorem use_spec (usable : filter.Usable) (step : Use) :
    ∃ after, filter.use step = .ok after ∧ filter.Grows after ∧
      ∀ vKey, step = .insert vKey → after.Has vKey := by
  cases step with
  | insert vKey =>
      obtain ⟨after, inserted, -⟩ := insert_spec usable vKey
      obtain ⟨grows, has⟩ := has_of_insert usable inserted
      exact ⟨after, inserted, grows, by rintro _ ⟨⟩; exact has⟩
  | contains vKey =>
      obtain ⟨answer, run, -⟩ := contains_spec usable vKey
      exact ⟨filter, by rw [use, run]; rfl, .refl filter, nofun⟩
  | isRelevantAndUpdate tx hash =>
      obtain ⟨after, found, run, grows, -⟩ := isRelevantAndUpdate_spec usable tx hash
      exact ⟨after, by rw [use, run]; rfl, grows, nofun⟩

theorem uses_spec (usable : filter.Usable) (steps : List Use) :
    ∃ after, steps.foldlM use filter = .ok after ∧ filter.Grows after ∧
      ∀ vKey, .insert vKey ∈ steps → after.Has vKey := by
  induction steps generalizing filter with
  | nil => exact ⟨filter, rfl, .refl filter, nofun⟩
  | cons step rest ih =>
      obtain ⟨mid, first, grows, inserts⟩ := use_spec usable step
      obtain ⟨after, others, grows', keeps⟩ := ih (grows.usable usable)
      refine ⟨after, by rw [List.foldlM_cons, first, ok_bind, others], grows.trans grows', ?_⟩
      intro vKey member
      rcases List.mem_cons.mp member with now | later
      · exact grows'.has (inserts vKey now.symm)
      · exact keeps vKey later

/-- Nothing that is done with a filter fails, and a key that has been inserted is contained ever
after, if and only if the filter has bits for its hash functions. -/
theorem bloomFilter_keeps_iff (filter : CBloomFilter) :
    (∀ steps : List Use, ∃ after, steps.foldlM use filter = .ok after ∧
        ∀ vKey, .insert vKey ∈ steps → after.contains vKey = .ok true) ↔
      filter.Usable := by
  constructor
  · intro works
    by_contra unusable
    obtain ⟨after, run, -⟩ := works [.contains []]
    simp [use, contains_undefined unusable, Except.map] at run
  · intro usable steps
    obtain ⟨after, run, grows, keeps⟩ := uses_spec usable steps
    exact ⟨after, run, fun vKey member => (keeps vKey member).contains (grows.usable usable)⟩

end CBloomFilter

/-! ## The messages -/

/-- The part of CNode that filterload, filteradd and filterclear change. -/
structure FilterNode where
  pfilter : Option CBloomFilter
  fRelayTxes : Bool
  nMisbehavior : Int
deriving DecidableEq

/-- A message of the peer, or a transaction that is tried against its filter. -/
inductive FilterMessage where
  | filterload (filter : CBloomFilter)
  | filteradd (vData : Bytes)
  | filterclear
  | relay (tx : CTransaction) (hash : UInt256)

namespace FilterNode

/-- Misbehaving, up to the ban -/
def misbehaving (pfrom : FilterNode) (howmuch : Int) : FilterNode :=
  { pfrom with nMisbehavior := pfrom.nMisbehavior + howmuch }

def process (pfrom : FilterNode) : FilterMessage → Except Failure FilterNode
  | .filterload filter =>
      let pfrom := if filter.isWithinSizeConstraints then { pfrom with pfilter := some filter } else pfrom.misbehaving 100
      .ok { pfrom with fRelayTxes := true }
  | .filteradd vData =>
      if MAX_SCRIPT_ELEMENT_SIZE < vData.length then .ok (pfrom.misbehaving 100)
      else
        match pfrom.pfilter with
        | none => .ok (pfrom.misbehaving 100)
        | some filter => do
            let filter ← filter.insert vData
            return { pfrom with pfilter := some filter }
  | .filterclear => .ok { pfrom with pfilter := none, fRelayTxes := true }
  | .relay tx hash =>
      match pfrom.pfilter with
      | none => .ok pfrom
      | some filter => do
          let (filter, _) ← filter.isRelevantAndUpdate tx hash
          return { pfrom with pfilter := some filter }

def FilterMessage.LoadsUsable : FilterMessage → Prop
  | .filterload filter => filter.isWithinSizeConstraints = true → filter.Usable
  | _ => True

/-- The keys that were added since the filter was loaded. -/
def FilterMessage.remembered (keys : List Bytes) : FilterMessage → List Bytes
  | .filterload filter => if filter.isWithinSizeConstraints then [] else keys
  | .filteradd vData => if MAX_SCRIPT_ELEMENT_SIZE < vData.length then keys else vData :: keys
  | .filterclear => []
  | .relay _ _ => keys

/-- The peer has no filter, or one that can be used and has the keys. -/
def Keeps (pfrom : FilterNode) (keys : List Bytes) : Prop :=
  ∀ filter, pfrom.pfilter = some filter → filter.Usable ∧ ∀ key ∈ keys, filter.Has key

variable {pfrom : FilterNode} {keys : List Bytes}

theorem process_spec (keeps : pfrom.Keeps keys) {message : FilterMessage}
    (loads : FilterMessage.LoadsUsable message) :
    ∃ after, pfrom.process message = .ok after ∧ after.Keeps (FilterMessage.remembered keys message) := by
  cases message with
  | filterload filter =>
      refine ⟨_, rfl, ?_⟩
      intro held present
      cases within : filter.isWithinSizeConstraints with
      | false =>
          simp only [FilterMessage.remembered, within, Bool.false_eq_true, if_false] at present ⊢
          exact keeps held present
      | true =>
          simp only [FilterMessage.remembered, within, if_true, Option.some.injEq] at present ⊢
          subst present
          exact ⟨loads within, nofun⟩
  | filteradd vData =>
      by_cases large : MAX_SCRIPT_ELEMENT_SIZE < vData.length
      · refine ⟨pfrom.misbehaving 100, if_pos large, ?_⟩
        rw [FilterMessage.remembered, if_pos large]
        exact keeps
      · rw [process, if_neg large, FilterMessage.remembered, if_neg large]
        cases held : pfrom.pfilter with
        | none =>
            refine ⟨pfrom.misbehaving 100, rfl, ?_⟩
            intro filter present
            rw [show (pfrom.misbehaving 100).pfilter = none from held] at present
            cases present
        | some filter =>
            obtain ⟨usable, has⟩ := keeps filter held
            obtain ⟨grown, inserted, _⟩ := CBloomFilter.insert_spec usable vData
            obtain ⟨grows, hasKey⟩ := CBloomFilter.has_of_insert usable inserted
            refine ⟨{ pfrom with pfilter := some grown }, by simp only [inserted, ok_bind]; rfl, ?_⟩
            rintro _ ⟨⟩
            exact ⟨grows.usable usable, List.forall_mem_cons.mpr ⟨hasKey, fun key listed => grows.has (has key listed)⟩⟩
  | filterclear => exact ⟨_, rfl, nofun⟩
  | relay tx hash =>
      rw [process, FilterMessage.remembered]
      cases held : pfrom.pfilter with
      | none => exact ⟨pfrom, rfl, keeps⟩
      | some filter =>
          obtain ⟨usable, has⟩ := keeps filter held
          obtain ⟨grown, found, run, grows, _⟩ := CBloomFilter.isRelevantAndUpdate_spec usable tx hash
          refine ⟨{ pfrom with pfilter := some grown }, by simp only [run, ok_bind]; rfl, ?_⟩
          rintro _ ⟨⟩
          exact ⟨grows.usable usable, fun key listed => grows.has (has key listed)⟩

theorem messages_spec (keeps : pfrom.Keeps keys) (messages : List FilterMessage)
    (loads : ∀ message ∈ messages, FilterMessage.LoadsUsable message) :
    ∃ after, messages.foldlM process pfrom = .ok after ∧
      after.Keeps (messages.foldl FilterMessage.remembered keys) := by
  induction messages generalizing pfrom keys with
  | nil => exact ⟨pfrom, rfl, keeps⟩
  | cons message rest ih =>
      obtain ⟨mid, first, keeps'⟩ := process_spec keeps (loads message List.mem_cons_self)
      obtain ⟨after, others, final⟩ := ih keeps' fun other member => loads other (List.mem_cons_of_mem _ member)
      exact ⟨after, by rw [List.foldlM_cons, first, ok_bind, others], final⟩

/-- A peer whose filters can be used is served without a fault, whatever its messages and the transactions that are
relayed in between, and its filter reports every key that the peer has added since it has loaded the filter. -/
theorem messages_served (fresh : pfrom.pfilter = none) (messages : List FilterMessage)
    (loads : ∀ message ∈ messages, FilterMessage.LoadsUsable message) :
    ∃ after, messages.foldlM process pfrom = .ok after ∧ ∀ filter, after.pfilter = some filter →
      ∀ key ∈ messages.foldl FilterMessage.remembered [], filter.contains key = .ok true := by
  have nothing : pfrom.Keeps [] := by
    intro filter present
    rw [fresh] at present
    cases present
  obtain ⟨after, run, keeps⟩ := messages_spec nothing messages loads
  refine ⟨after, run, fun filter present key added => ?_⟩
  obtain ⟨usable, has⟩ := keeps filter present
  exact (has key added).contains usable

/-- The second filter is loaded over the first, and a large key is refused. -/
theorem messages_served_sample : ∃ after : FilterNode, ∃ filter, after.pfilter = some filter ∧
    filter.contains [7] = .ok true := by
  let messages : List FilterMessage := [.filterload ⟨[0], 1, 0, 0⟩, .filteradd [9], .filterload ⟨[0, 0], 2, 0, 0⟩,
    .filteradd (List.replicate 521 1), .filteradd [7]]
  have loaded : (messages.foldlM process ⟨none, false, 0⟩).toOption.any (fun after => after.pfilter.isSome) = true := by
    decide +kernel
  have loads : ∀ message ∈ messages, FilterMessage.LoadsUsable message := by
    refine List.forall_mem_cons.mpr ⟨fun _ => .inl (by decide), List.forall_mem_cons.mpr ⟨trivial, ?_⟩⟩
    refine List.forall_mem_cons.mpr ⟨fun _ => .inl (by decide), List.forall_mem_cons.mpr ⟨trivial, ?_⟩⟩
    exact List.forall_mem_cons.mpr ⟨trivial, fun _ member => by cases member⟩
  obtain ⟨after, run, keeps⟩ := @messages_served ⟨none, false, 0⟩ rfl messages loads
  rw [run] at loaded
  obtain ⟨filter, present⟩ := Option.isSome_iff_exists.mp (by simpa [Except.toOption] using loaded)
  exact ⟨after, filter, present, keeps filter present [7] (by decide +kernel)⟩

/-- A filter without bytes but with a hash function passes the size limits, and the first key
that is added to it divides by zero. -/
theorem filteradd_undefined :
    [.filterload ⟨[], 1, 0, 0⟩, .filteradd [7]].foldlM process ⟨none, false, 0⟩ =
      .error (.undefined "CBloomFilter::Hash") := by
  decide

end FilterNode

end BitCrystal
