import BitCrystal.Data.Tables
import BitCrystal.RequestTimes
import BitCrystal.Transaction
import Mathlib.Data.Int.ConditionallyCompleteOrder
import Mathlib.Order.Lattice.Nat

namespace BitCrystal

open Data

/-! # The relay memory -/

def MSG_TX : Int := 1

structure RelayMemory where
  mapRelay : Std.ExtTreeMap CInv Bytes
  vRelayExpiration : List (Int × CInv)

/-- A call of RelayTransaction, with what GetTime returns to it. -/
structure Relay where
  hash : UInt256
  ss : Bytes
  time : Int

/-- `15 * 60` -/
def relayPeriod : Int := 15 * 60

namespace Relay

/-- The call that the overload without a stream makes. -/
def ofTransaction (tx : CTransaction) (hash : UInt256) (time : Int) : Relay := ⟨hash, tx.serialize, time⟩

def inv (relay : Relay) : CInv := ⟨MSG_TX, relay.hash⟩

/-- What the call pushes to `vRelayExpiration`. -/
def entry (relay : Relay) : Int × CInv := (relay.time + relayPeriod, relay.inv)

end Relay

namespace RelayMemory

def start : RelayMemory := ⟨∅, []⟩

/-- Expire old relay messages. -/
def expire (mapRelay : Std.ExtTreeMap CInv Bytes) (now : Int) : List (Int × CInv) → RelayMemory
  | [] => ⟨mapRelay, []⟩
  | front :: rest => if front.1 < now then expire (mapRelay.erase front.2) now rest else ⟨mapRelay, front :: rest⟩

def relayTransaction (s : RelayMemory) (relay : Relay) : RelayMemory :=
  let s := expire s.mapRelay relay.time s.vRelayExpiration
  -- Save original serialized message so newer versions are preserved
  ⟨s.mapRelay.insertIfNew relay.inv relay.ss, s.vRelayExpiration ++ [relay.entry]⟩

/-- After the first calls of a sequence. -/
def relayed (calls : Nat → Relay) : Nat → RelayMemory
  | 0 => start
  | n + 1 => (relayed calls n).relayTransaction (calls n)

/-! ## One call -/

def Ordered (entries : List (Int × CInv)) : Prop := entries.Pairwise fun left right => left.1 ≤ right.1

variable {entries : List (Int × CInv)} {mapRelay : Std.ExtTreeMap CInv Bytes} {now : Int} {inv : CInv}

theorem expire_queue (ordered : Ordered entries) :
    (expire mapRelay now entries).vRelayExpiration = entries.filter fun entry => now ≤ entry.1 := by
  induction entries generalizing mapRelay with
  | nil => rfl
  | cons front rest ih =>
      obtain ⟨first, ordered'⟩ := List.pairwise_cons.mp ordered
      by_cases expired : front.1 < now
      · rw [expire, if_pos expired, ih ordered', List.filter_cons_of_neg (by simpa using expired)]
      · have kept : ∀ entry ∈ front :: rest, decide (now ≤ entry.1) = true := by
          intro entry member
          rw [decide_eq_true_eq]
          cases member with
          | head => omega
          | tail _ later =>
              have := first entry later
              omega
        rw [expire, if_neg expired, List.filter_eq_self.mpr kept]

theorem mem_expire (ordered : Ordered entries) :
    inv ∈ (expire mapRelay now entries).mapRelay ↔
      inv ∈ mapRelay ∧ ∀ entry ∈ entries, entry.1 < now → entry.2 ≠ inv := by
  induction entries generalizing mapRelay with
  | nil => simp [expire]
  | cons front rest ih =>
      obtain ⟨first, ordered'⟩ := List.pairwise_cons.mp ordered
      by_cases expired : front.1 < now
      · rw [expire, if_pos expired, ih ordered', Std.ExtTreeMap.mem_erase, List.forall_mem_cons]
        simp only [ne_eq, Std.compare_eq_iff_eq, expired, true_implies]
        exact ⟨fun ⟨⟨other, member⟩, apart⟩ => ⟨member, other, apart⟩,
          fun ⟨member, other, apart⟩ => ⟨⟨other, member⟩, apart⟩⟩
      · rw [expire, if_neg expired]
        apply Iff.intro
        · intro member
          apply And.intro member
          intro entry among early
          cases among with
          | head => exact absurd early expired
          | tail _ later =>
              have := first entry later
              omega
        · exact And.left

theorem mem_relayTransaction {s : RelayMemory} (ordered : Ordered s.vRelayExpiration) (relay : Relay) :
    inv ∈ (s.relayTransaction relay).mapRelay ↔
      relay.inv = inv ∨ inv ∈ s.mapRelay ∧ ∀ entry ∈ s.vRelayExpiration, entry.1 < relay.time → entry.2 ≠ inv := by
  rw [relayTransaction, Std.ExtTreeMap.mem_insertIfNew, Std.compare_eq_iff_eq, mem_expire ordered]

theorem mem_queue {s : RelayMemory} (ordered : Ordered s.vRelayExpiration) (relay : Relay) {entry : Int × CInv} :
    entry ∈ (s.relayTransaction relay).vRelayExpiration ↔
      entry ∈ s.vRelayExpiration ∧ relay.time ≤ entry.1 ∨ entry = relay.entry := by
  rw [relayTransaction, expire_queue ordered, List.mem_append, List.mem_filter, decide_eq_true_eq, List.mem_singleton]

/-! ## Every sequence of calls -/

variable {calls : Nat → Relay}

/-- The calls are made at non-decreasing times. -/
def InOrder (calls : Nat → Relay) : Prop := Monotone fun i => (calls i).time

/-- The entries of the calls so far that have not expired. -/
structure Queued (calls : Nat → Relay) (n : Nat) (entries : List (Int × CInv)) : Prop where
  ordered : Ordered entries
  mem_iff : ∀ entry, entry ∈ entries ↔
    ∃ k ≤ n, (calls n).time ≤ (calls k).time + relayPeriod ∧ entry = (calls k).entry

theorem ordered_relayTransaction {s : RelayMemory} (ordered : Ordered s.vRelayExpiration) (relay : Relay)
    (last : ∀ entry ∈ s.vRelayExpiration, entry.1 ≤ relay.entry.1) :
    Ordered (s.relayTransaction relay).vRelayExpiration := by
  rw [relayTransaction, expire_queue ordered, Ordered, List.pairwise_append]
  apply And.intro (ordered.filter _)
  apply And.intro (List.pairwise_singleton _ _)
  intro entry member new isNew
  rw [List.mem_singleton.mp isNew]
  exact last entry (List.mem_filter.mp member).1

theorem queued (inOrder : InOrder calls) (n : Nat) : Queued calls n (relayed calls (n + 1)).vRelayExpiration := by
  induction n with
  | zero =>
      have queue : (relayed calls 1).vRelayExpiration = [(calls 0).entry] := rfl
      rw [queue]
      apply Queued.mk (List.pairwise_singleton _ _)
      intro entry
      rw [List.mem_singleton]
      apply Iff.intro
      · intro same
        exact ⟨0, Nat.le_refl 0, by simp [relayPeriod], same⟩
      · intro ⟨k, first, _, same⟩
        rwa [Nat.le_zero.mp first] at same
  | succ n ih =>
      have later : (calls n).time ≤ (calls (n + 1)).time := inOrder (Nat.le_succ n)
      apply Queued.mk
      · apply ordered_relayTransaction ih.ordered
        intro entry member
        obtain ⟨k, before, -, rfl⟩ := (ih.mem_iff entry).mp member
        exact Int.add_le_add_right (inOrder (by omega)) _
      · intro entry
        rw [relayed, mem_queue ih.ordered, ih.mem_iff]
        apply Iff.intro
        · intro member
          cases member with
          | inl old =>
              obtain ⟨⟨k, before, -, rfl⟩, kept⟩ := old
              exact ⟨k, by omega, kept, rfl⟩
          | inr new => exact ⟨n + 1, Nat.le_refl _, by simp [relayPeriod], new⟩
        · intro ⟨k, before, kept, same⟩
          cases Nat.lt_or_eq_of_le before with
          | inl old =>
              subst same
              exact Or.inl ⟨⟨k, by omega, by omega, rfl⟩, kept⟩
          | inr new => exact Or.inr (new ▸ same)

/-- An item leaves the map in a call when one of its entries expires and the call relays another. -/
theorem mem_relayed (inOrder : InOrder calls) (n : Nat) :
    inv ∈ (relayed calls (n + 2)).mapRelay ↔ (calls (n + 1)).inv = inv ∨ inv ∈ (relayed calls (n + 1)).mapRelay ∧
      ∀ k ≤ n, (calls n).time ≤ (calls k).time + relayPeriod →
        (calls k).time + relayPeriod < (calls (n + 1)).time → (calls k).inv ≠ inv := by
  have spec := queued inOrder n
  rw [relayed, mem_relayTransaction spec.ordered]
  apply or_congr_right
  apply and_congr_right
  intro _
  apply Iff.intro
  · intro apart k before kept expired
    exact apart _ ((spec.mem_iff _).mpr ⟨k, before, kept, rfl⟩) expired
  · intro apart entry member expired
    obtain ⟨k, before, kept, rfl⟩ := (spec.mem_iff _).mp member
    exact apart k before kept expired

theorem mem_relayed_self (n : Nat) : (calls n).inv ∈ (relayed calls (n + 1)).mapRelay := by
  rw [relayed, relayTransaction, Std.ExtTreeMap.mem_insertIfNew, Std.compare_eq_iff_eq]
  exact Or.inl rfl

/-- What was relayed is found for 15 minutes, in the states that the first calls leave. -/
def Available (calls : Nat → Relay) (made : Nat) : Prop :=
  ∀ i j, i ≤ j → j < made → ∀ time, (calls j).time ≤ time → time ≤ (calls i).time + relayPeriod →
    (calls i).inv ∈ (relayed calls (j + 1)).mapRelay

def Pending (s : RelayMemory) : Prop := ∀ inv ∈ s.mapRelay, ∃ entry ∈ s.vRelayExpiration, entry.2 = inv

/-- Call `k` and then call `i` relay a transaction, and the first call after the entry of `k` expires
relays another while the entry of `i` is pending. -/
structure Disturbs (calls : Nat → Relay) (k i l : Nat) : Prop where
  before : k < i
  after : i < l
  again : (calls k).inv = (calls i).inv
  other : (calls l).inv ≠ (calls i).inv
  kept : (calls (l - 1)).time ≤ (calls k).time + relayPeriod
  expired : (calls k).time + relayPeriod < (calls l).time
  early : (calls l).time ≤ (calls i).time + relayPeriod

theorem pending_relayTransaction {s : RelayMemory} (ordered : Ordered s.vRelayExpiration) (pending : s.Pending)
    (relay : Relay) : (s.relayTransaction relay).Pending := by
  intro inv member
  cases (mem_relayTransaction ordered relay).mp member with
  | inl new => exact ⟨relay.entry, (mem_queue ordered relay).mpr (Or.inr rfl), new⟩
  | inr old =>
      obtain ⟨entry, among, same⟩ := pending inv old.1
      have alive : relay.time ≤ entry.1 := by
        apply Int.not_lt.mp
        intro expired
        exact old.2 entry among expired same
      exact ⟨entry, (mem_queue ordered relay).mpr (Or.inl ⟨among, alive⟩), same⟩

theorem pending_relayed (inOrder : InOrder calls) (n : Nat) : (relayed calls n).Pending := by
  induction n with
  | zero =>
      intro inv member
      exact absurd member Std.ExtTreeMap.not_mem_empty
  | succ n ih =>
      cases n with
      | zero => exact pending_relayTransaction (show Ordered start.vRelayExpiration from List.Pairwise.nil) ih _
      | succ n => exact pending_relayTransaction (queued inOrder n).ordered ih _

theorem stays (inOrder : InOrder calls) {made i : Nat} (undisturbed : ¬∃ k i l, l < made ∧ Disturbs calls k i l)
    (apart : Nat) : i + apart < made → (calls (i + apart)).time ≤ (calls i).time + relayPeriod →
    (calls i).inv ∈ (relayed calls (i + apart + 1)).mapRelay := by
  induction apart with
  | zero =>
      intro _ _
      exact mem_relayed_self i
  | succ apart ih =>
      intro inside early
      have later : (calls (i + apart)).time ≤ (calls (i + apart + 1)).time := inOrder (Nat.le_succ _)
      have found := ih (by omega) (Int.le_trans later early)
      apply (mem_relayed inOrder (i + apart)).mpr
      by_cases same : (calls (i + apart + 1)).inv = (calls i).inv
      · exact Or.inl same
      · apply Or.inr
        apply And.intro found
        intro k before kept expired again
        have first : k < i := by
          apply Nat.lt_of_not_le
          intro after
          have : (calls i).time ≤ (calls k).time := inOrder after
          exact absurd (Int.lt_of_lt_of_le expired early) (by omega)
        exact undisturbed ⟨k, i, i + apart + 1, inside, first, by omega, again, same, kept, expired, early⟩

theorem disturbed (inOrder : InOrder calls) {k i l : Nat} (disturbs : Disturbs calls k i l) :
    (calls i).inv ∉ (relayed calls (l + 1)).mapRelay := by
  obtain ⟨n, rfl⟩ := Nat.exists_eq_add_of_lt disturbs.after
  intro found
  cases (mem_relayed inOrder (i + n)).mp found with
  | inl same => exact disturbs.other same
  | inr old => exact old.2 k (by have := disturbs.before; omega) disturbs.kept disturbs.expired disturbs.again

/-- What was relayed stays available if and only if no call expires an earlier relay of it. -/
theorem available_iff (inOrder : InOrder calls) (made : Nat) :
    (Available calls made ∧ ∀ n ≤ made, (relayed calls n).Pending) ↔
      ¬∃ k i l, l < made ∧ Disturbs calls k i l := by
  apply Iff.intro
  · intro ⟨available, _⟩ ⟨k, i, l, inside, disturbs⟩
    exact disturbed inOrder disturbs
      (available i l (Nat.le_of_lt disturbs.after) inside (calls l).time (Int.le_refl _) disturbs.early)
  · intro undisturbed
    apply And.intro
    · intro i j order inside time begun early
      obtain ⟨apart, rfl⟩ := Nat.exists_eq_add_of_le order
      exact stays inOrder undisturbed apart inside (Int.le_trans begun early)
    · intro n _
      exact pending_relayed inOrder n

/-- One transaction at 0 and 600 seconds, and then another at 960 seconds. -/
def relayedTwice : Nat → Relay
  | 0 => ⟨7, [], 0⟩
  | 1 => ⟨7, [], 600⟩
  | _ => ⟨8, [], 960⟩

theorem relayedTwice_unavailable : ¬Available relayedTwice 3 := by
  intro available
  have found := available 1 2 (by decide) (by decide) 960 (by decide) (by decide)
  exact absurd found (by decide)

theorem available_repeated : Available (fun n => ⟨7, [], n⟩) 1000 := by
  have inOrder : InOrder fun n => ⟨7, [], n⟩ := fun _ _ order => Int.ofNat_le.mpr order
  apply ((available_iff inOrder 1000).mpr ?_).1
  intro ⟨_, _, _, _, disturbs⟩
  exact disturbs.other rfl

end RelayMemory

end BitCrystal
