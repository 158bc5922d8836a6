import Mathlib.Data.List.DropRight
import Mathlib.Data.List.Nodup
import Mathlib.Tactic.Common
import Std.Data.ExtTreeSet

namespace BitCrystal

/-! # Sets of the most recent elements -/

structure MruSet (T : Type) [Ord T] where
  set : Std.ExtTreeSet T
  queue : List T
  nMaxSize : Nat

namespace MruSet

variable {T : Type} [Ord T] [Std.TransOrd T] [Std.LawfulEqOrd T]

/-- The constructor. -/
def new (nMaxSizeIn : Nat) : MruSet T := ⟨∅, [], nMaxSizeIn⟩

/-- `insert`, with the flag of its answer. -/
def insert (s : MruSet T) (x : T) : MruSet T × Bool :=
  if x ∈ s.set then (s, false)
  else
    let set := s.set.insert x
    match s.queue with
    | front :: rest =>
        if s.nMaxSize ≠ 0 ∧ (front :: rest).length = s.nMaxSize then
          ({ s with set := set.erase front, queue := rest ++ [x] }, true)
        else ({ s with set, queue := front :: rest ++ [x] }, true)
    | [] => ({ s with set, queue := [x] }, true)

/-- The loop of `max_size`. -/
def shrink (size : Nat) : Std.ExtTreeSet T → List T → Std.ExtTreeSet T × List T
  | set, front :: rest =>
      if size < (front :: rest).length then shrink size (set.erase front) rest else (set, front :: rest)
  | set, [] => (set, [])

def maxSize (s : MruSet T) (size : Nat) : MruSet T :=
  if size ≠ 0 then
    let (set, queue) := shrink size s.set s.queue
    ⟨set, queue, size⟩
  else { s with nMaxSize := size }

/-! ## The set and the queue -/

structure Lists (set : Std.ExtTreeSet T) (queue : List T) : Prop where
  nodup : queue.Nodup
  mem_iff : ∀ x, x ∈ set ↔ x ∈ queue
  size : set.size = queue.length

namespace Lists

variable {set : Std.ExtTreeSet T} {queue rest : List T} {front x : T}

omit [Std.LawfulEqOrd T] in
theorem empty : Lists (∅ : Std.ExtTreeSet T) [] :=
  ⟨List.nodup_nil, fun x => by simp, rfl⟩

theorem push (lists : Lists set queue) (absent : x ∉ set) : Lists (set.insert x) (queue ++ [x]) where
  nodup := by
    have fresh : x ∉ queue := fun member => absent ((lists.mem_iff x).mpr member)
    exact List.Nodup.append lists.nodup (List.nodup_singleton x) (by simpa using fresh)
  mem_iff y := by
    rw [Std.ExtTreeSet.mem_insert, Std.compare_eq_iff_eq, lists.mem_iff, List.mem_append, List.mem_singleton,
      or_comm, eq_comm]
  size := by
    have missing : set.contains x = false :=
      Bool.eq_false_iff.mpr fun present => absent (Std.ExtTreeSet.mem_iff_contains.mpr present)
    rw [Std.ExtTreeSet.size_insert, missing, lists.size, List.length_append]
    rfl

theorem pop (lists : Lists set (front :: rest)) : Lists (set.erase front) rest where
  nodup := (List.nodup_cons.mp lists.nodup).2
  mem_iff y := by
    have gone : front ∉ rest := (List.nodup_cons.mp lists.nodup).1
    rw [Std.ExtTreeSet.mem_erase, ne_eq, Std.compare_eq_iff_eq, lists.mem_iff, List.mem_cons]
    constructor
    · rintro ⟨different, same | member⟩
      · exact absurd same.symm different
      · exact member
    · intro member
      exact ⟨fun same => gone (same ▸ member), Or.inr member⟩
  size := by
    have present : set.contains front = true :=
      Std.ExtTreeSet.mem_iff_contains.mp ((lists.mem_iff front).mpr List.mem_cons_self)
    rw [Std.ExtTreeSet.size_erase, present, lists.size, List.length_cons]
    rfl

theorem shrink (size : Nat) (lists : Lists set queue) :
    Lists (MruSet.shrink size set queue).1 (MruSet.shrink size set queue).2 ∧
      (MruSet.shrink size set queue).2.length ≤ size := by
  induction queue generalizing set with
  | nil => exact ⟨lists, Nat.zero_le _⟩
  | cons front rest ih =>
      rw [MruSet.shrink]
      split
      · exact ih lists.pop
      · rename_i small
        exact ⟨lists, Nat.not_lt.mp small⟩

end Lists

/-! ## One call -/

variable {s : MruSet T}

/-- The limit holds, when there is one. -/
structure Valid (s : MruSet T) : Prop extends Lists s.set s.queue where
  bounded : s.nMaxSize ≠ 0 → s.queue.length ≤ s.nMaxSize

omit [Std.LawfulEqOrd T] in
theorem insert_known {x : T} (known : x ∈ s.set) : s.insert x = (s, false) := by
  rw [insert, if_pos known]

theorem insert_absent (valid : s.Valid) {x : T} (absent : x ∉ s.set) :
    ∃ set, s.insert x = (⟨set, if s.nMaxSize ≠ 0 ∧ s.queue.length = s.nMaxSize then s.queue.tail ++ [x]
        else s.queue ++ [x], s.nMaxSize⟩, true) ∧
      Lists set (if s.nMaxSize ≠ 0 ∧ s.queue.length = s.nMaxSize then s.queue.tail ++ [x] else s.queue ++ [x]) := by
  have pushed := valid.push absent
  rw [insert, if_neg absent]
  cases listed : s.queue with
  | nil =>
      have room : ¬ (s.nMaxSize ≠ 0 ∧ ([] : List T).length = s.nMaxSize) := fun full => full.1 full.2.symm
      rw [listed] at pushed
      rw [if_neg room]
      exact ⟨_, rfl, pushed⟩
  | cons front rest =>
      rw [listed] at pushed
      dsimp only
      split
      · have listed' : Lists _ (front :: (rest ++ [x])) := pushed
        exact ⟨_, rfl, listed'.pop⟩
      · exact ⟨_, rfl, pushed⟩

theorem Valid.insert (valid : s.Valid) (x : T) :
    (s.insert x).1.Valid ∧ (s.insert x).1.nMaxSize = s.nMaxSize := by
  by_cases known : x ∈ s.set
  · rw [insert_known known]
    exact ⟨valid, rfl⟩
  · obtain ⟨set, result, lists⟩ := insert_absent valid known
    rw [result]
    refine ⟨⟨lists, fun limited => ?_⟩, rfl⟩
    have bounded := valid.bounded limited
    show (ite _ _ _ : List T).length ≤ s.nMaxSize
    split
    · rename_i full
      rw [List.length_append, List.length_tail, List.length_singleton]
      omega
    · rename_i room
      rw [List.length_append, List.length_singleton]
      have different : s.queue.length ≠ s.nMaxSize := fun full => room ⟨limited, full⟩
      omega

theorem Valid.maxSize (valid : s.Valid) (size : Nat) : (s.maxSize size).Valid := by
  unfold MruSet.maxSize
  split
  · have shrunk := Lists.shrink size valid.toLists
    exact ⟨shrunk.1, fun _ => shrunk.2⟩
  · rename_i zero
    exact ⟨valid.toLists, fun limited => absurd limited zero⟩

/-! ## Runs -/

inductive Call (T : Type) where
  | insert (x : T)
  | maxSize (size : Nat)

def call (s : MruSet T) : Call T → MruSet T
  | .insert x => (s.insert x).1
  | .maxSize size => s.maxSize size

def run (s : MruSet T) (calls : List (Call T)) : MruSet T := calls.foldl call s

theorem Valid.run (valid : s.Valid) (calls : List (Call T)) : (s.run calls).Valid := by
  induction calls generalizing s with
  | nil => exact valid
  | cons first rest ih =>
      refine ih ?_
      cases first with
      | insert x => exact (valid.insert x).1
      | maxSize size => exact valid.maxSize size

end MruSet

end BitCrystal
