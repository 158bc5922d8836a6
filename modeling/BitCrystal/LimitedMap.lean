import BitCrystal.Data.Tables
import Mathlib.Order.Defs.LinearOrder

namespace BitCrystal

open Data

/-! # Maps of the largest values -/

structure LimitedMap (K V : Type) [Ord K] where
  map : Std.ExtTreeMap K V
  /-- The multimap from values to iterators, which are given by their keys. -/
  rmap : List (V × K)
  nMaxSize : Nat

namespace LimitedMap

variable {K V : Type} [Ord K] [Std.TransOrd K] [LinearOrder V] [DecidableEq K]

/-- The constructor. -/
def new (nMaxSizeIn : Nat) : LimitedMap K V := ⟨∅, [], nMaxSizeIn⟩

/-- `rmap.insert(entry)`, behind the entries with the same value. -/
def insertEntry (entry : V × K) : List (V × K) → List (V × K)
  | [] => [entry]
  | first :: rest => if entry.1 < first.1 then entry :: first :: rest else first :: insertEntry entry rest

/-! The functions below have no result where an assertion of the source fails or `rmap.begin()` is the
end of an empty multimap. -/

/-- `map.erase(rmap.begin()->second)` and `rmap.erase(rmap.begin())` -/
def evict (s : LimitedMap K V) : Option (LimitedMap K V) :=
  match s.rmap with
  | [] => none
  | first :: rest => some { s with map := s.map.erase first.2, rmap := rest }

def insert (s : LimitedMap K V) (k : K) (v : V) : Option (LimitedMap K V) :=
  if k ∈ s.map then some s
  else do
    let s := { s with map := s.map.insert k v }
    let s ← if s.nMaxSize ≠ 0 ∧ s.map.size = s.nMaxSize then s.evict else some s
    return { s with rmap := insertEntry (v, k) s.rmap }

def erase (s : LimitedMap K V) (k : K) : Option (LimitedMap K V) :=
  match s.map[k]? with
  | none => some s
  | some v => if (v, k) ∈ s.rmap then some { s with map := s.map.erase k, rmap := s.rmap.erase (v, k) } else none

/-- `update`, with the iterator given by its key. -/
def update (s : LimitedMap K V) (k : K) (v : V) : Option (LimitedMap K V) :=
  match s.map[k]? with
  | none => some s
  | some old =>
      if (old, k) ∈ s.rmap then
        some { s with map := s.map.insert k v, rmap := insertEntry (v, k) (s.rmap.erase (old, k)) }
      else none

/-- The loop of `max_size`. -/
def trim (size : Nat) : Std.ExtTreeMap K V → List (V × K) → Option (Std.ExtTreeMap K V × List (V × K))
  | map, [] => if size < map.size then none else some (map, [])
  | map, first :: rest =>
      if size < map.size then trim size (map.erase first.2) rest else some (map, first :: rest)

def maxSize (s : LimitedMap K V) (size : Nat) : Option (LimitedMap K V) :=
  if size ≠ 0 then do
    let (map, rmap) ← trim size s.map s.rmap
    return ⟨map, rmap, size⟩
  else some { s with nMaxSize := size }

inductive Call (K V : Type) where
  | insert (k : K) (v : V)
  | erase (k : K)
  | update (k : K) (v : V)
  | maxSize (size : Nat)

def call (s : LimitedMap K V) : Call K V → Option (LimitedMap K V)
  | .insert k v => s.insert k v
  | .erase k => s.erase k
  | .update k v => s.update k v
  | .maxSize size => s.maxSize size

/-! ## The two directions -/

/-- The multimap has the entries of the map, by their values. -/
structure Linked (map : Std.ExtTreeMap K V) (rmap : List (V × K)) : Prop where
  entries : ∀ k v, map[k]? = some v ↔ (v, k) ∈ rmap
  nodup : rmap.Nodup
  sorted : rmap.Pairwise fun first second => first.1 ≤ second.1
  size : map.size = rmap.length

section

variable {entry other : V × K} {rmap rest : List (V × K)}

omit [DecidableEq K] [Ord K] [Std.TransOrd K] in
theorem insertEntry_perm (entry : V × K) (rmap : List (V × K)) : (insertEntry entry rmap).Perm (entry :: rmap) := by
  induction rmap with
  | nil => exact .refl [entry]
  | cons first rest ih =>
      rw [insertEntry]
      split
      · exact .refl _
      · exact (ih.cons first).trans (.swap entry first rest)

omit [DecidableEq K] [Ord K] [Std.TransOrd K] in
theorem insertEntry_sorted (sorted : rmap.Pairwise fun first second => first.1 ≤ second.1) :
    (insertEntry entry rmap).Pairwise fun first second => first.1 ≤ second.1 := by
  induction rmap with
  | nil => exact List.pairwise_singleton _ _
  | cons first rest ih =>
      obtain ⟨least, sorted⟩ := List.pairwise_cons.mp sorted
      rw [insertEntry]
      split
      · rename_i less
        refine List.pairwise_cons.mpr ⟨fun later member => ?_, List.pairwise_cons.mpr ⟨least, sorted⟩⟩
        rcases List.mem_cons.mp member with rfl | inside
        · exact le_of_lt less
        · exact (le_of_lt less).trans (least later inside)
      · rename_i more
        refine List.pairwise_cons.mpr ⟨fun later member => ?_, ih sorted⟩
        rcases List.mem_cons.mp ((insertEntry_perm entry rest).mem_iff.mp member) with rfl | inside
        · exact not_lt.mp more
        · exact least later inside

end

namespace Linked

variable [Std.LawfulEqOrd K] {map : Std.ExtTreeMap K V} {rmap rest : List (V × K)} {k : K} {v : V}

omit [DecidableEq K] [Std.LawfulEqOrd K] in
theorem empty : Linked (∅ : Std.ExtTreeMap K V) [] :=
  ⟨fun k v => by simp, List.nodup_nil, List.Pairwise.nil, rfl⟩

theorem push (linked : Linked map rmap) (absent : map[k]? = none) : Linked (map.insert k v) (insertEntry (v, k) rmap) where
  entries other w := by
    rw [lookup_insert, (insertEntry_perm (v, k) rmap).mem_iff, List.mem_cons]
    split
    · rename_i same
      subst same
      have fresh (w : V) : (w, other) ∉ rmap := fun member => by
        have found := (linked.entries other w).mpr member
        rw [absent] at found
        contradiction
      constructor
      · rintro ⟨⟩
        exact Or.inl rfl
      · rintro (same | member)
        · rw [(Prod.mk.inj same).1]
        · exact absurd member (fresh w)
    · rename_i different
      rw [linked.entries]
      constructor
      · exact Or.inr
      · rintro (same | member)
        · exact absurd (Prod.mk.inj same).2 different
        · exact member
  nodup := by
    refine (insertEntry_perm (v, k) rmap).nodup_iff.mpr (List.nodup_cons.mpr ⟨fun member => ?_, linked.nodup⟩)
    have found := (linked.entries k v).mpr member
    rw [absent] at found
    contradiction
  sorted := insertEntry_sorted linked.sorted
  size := by
    have missing : map.contains k = false := Bool.eq_false_iff.mpr fun present =>
      lookup_eq_none_iff.mp absent (Std.ExtTreeMap.mem_iff_contains.mpr present)
    rw [Std.ExtTreeMap.size_insert, missing, (insertEntry_perm (v, k) rmap).length_eq, List.length_cons, linked.size]
    rfl

theorem remove (linked : Linked map rmap) (member : (v, k) ∈ rmap) : Linked (map.erase k) (rmap.erase (v, k)) where
  entries other w := by
    rw [lookup_erase, linked.nodup.mem_erase_iff]
    split
    · rename_i same
      subst same
      refine iff_of_false nofun ?_
      rintro ⟨different, inside⟩
      have first := (linked.entries other w).mpr inside
      rw [(linked.entries other v).mpr member, Option.some.injEq] at first
      exact different (first ▸ rfl)
    · rename_i different
      rw [linked.entries]
      refine ⟨fun inside => ⟨fun same => different (Prod.mk.inj same).2, inside⟩, And.right⟩
  nodup := linked.nodup.erase _
  sorted := linked.sorted.sublist (List.erase_sublist)
  size := by
    have present : map.contains k = true := by
      have found := (linked.entries k v).mpr member
      refine Std.ExtTreeMap.mem_iff_contains.mp (Std.ExtTreeMap.mem_iff_isSome_getElem?.mpr ?_)
      rw [found]
      rfl
    rw [Std.ExtTreeMap.size_erase, present, List.length_erase_of_mem member, linked.size]
    rfl

theorem pop {first : V × K} (linked : Linked map (first :: rest)) : Linked (map.erase first.2) rest := by
  have removed := linked.remove (k := first.2) (v := first.1) List.mem_cons_self
  rwa [List.erase_cons_head] at removed

end Linked

/-! ## What a limited map is for -/

/-- Of the wanted entries those with the largest values are kept, as many as the limit allows. -/
structure KeepsLargest (wanted kept : Std.ExtTreeMap K V) (limit : Nat) : Prop where
  subset : ∀ (k : K) (v : V), kept[k]? = some v → wanted[k]? = some v
  size : kept.size = min wanted.size limit
  smallest : ∀ (k : K) (v : V) (other : K) (w : V),
    wanted[k]? = some v → kept[k]? = none → kept[other]? = some w → v ≤ w

/-- The entries after a call of a map without a limit. -/
def wanted (s : LimitedMap K V) : Call K V → Std.ExtTreeMap K V
  | .insert k v => if k ∈ s.map then s.map else s.map.insert k v
  | .erase k => s.map.erase k
  | .update k v => if k ∈ s.map then s.map.insert k v else s.map
  | .maxSize _ => s.map

/-- Each call keeps both directions in step, and evicts only the smallest entries beyond the limit. -/
def Follows (s : LimitedMap K V) : List (Call K V) → Prop
  | [] => True
  | call :: calls => ∃ next, s.call call = some next ∧ Linked next.map next.rmap ∧
      KeepsLargest (s.wanted call) next.map next.nMaxSize ∧ next.Follows calls

/-- An insertion of a new key leaves the map below the limit. -/
def Roomy (s : LimitedMap K V) : Call K V → Prop
  | .insert k _ => k ∉ s.map → s.map.size + 1 < s.nMaxSize
  | _ => True

def AlwaysRoomy (s : LimitedMap K V) : List (Call K V) → Prop
  | [] => True
  | call :: calls => s.Roomy call ∧ ∀ next, s.call call = some next → next.AlwaysRoomy calls

omit [DecidableEq K] in
theorem KeepsLargest.all {wanted : Std.ExtTreeMap K V} {limit : Nat} (bounded : wanted.size ≤ limit) :
    KeepsLargest wanted wanted limit where
  subset _ _ found := found
  size := (Nat.min_eq_left bounded).symm
  smallest k v _ _ found gone _ := by
    rw [found] at gone
    contradiction

variable [Std.LawfulEqOrd K]

theorem trim_spec {map : Std.ExtTreeMap K V} {rmap : List (V × K)} (size : Nat) (linked : Linked map rmap) :
    ∃ kept entries, trim size map rmap = some (kept, entries) ∧ Linked kept entries ∧ KeepsLargest map kept size := by
  induction rmap generalizing map with
  | nil =>
      have bounded : map.size ≤ size := linked.size ▸ Nat.zero_le size
      exact ⟨map, [], by rw [trim, if_neg (Nat.not_lt.mpr bounded)], linked, .all bounded⟩
  | cons first rest ih =>
      rw [trim]
      split
      · rename_i large
        obtain ⟨kept, entries, result, linked', largest⟩ := ih linked.pop
        have removed (k : K) : (map.erase first.2)[k]? = if k = first.2 then none else map[k]? := lookup_erase map first.2 k
        have count : (map.erase first.2).size + 1 = map.size := by
          rw [linked.pop.size, linked.size, List.length_cons]
        refine ⟨kept, entries, result, linked', ⟨fun k v found => ?_, ?_, fun k v other w found gone found' => ?_⟩⟩
        · have inner := largest.subset k v found
          rw [removed] at inner
          split at inner
          · contradiction
          · exact inner
        · rw [largest.size]
          omega
        · by_cases own : k = first.2
          · -- the first entry of the multimap is the smallest one
            subst own
            have value : first.1 = v := by
              have stored := (linked.entries first.2 first.1).mpr List.mem_cons_self
              rw [found, Option.some.injEq] at stored
              exact stored.symm
            have inside := (linked.pop.entries other w).mp (largest.subset other w found')
            exact value ▸ (List.pairwise_cons.mp linked.sorted).1 (w, other) inside
          · exact largest.smallest k v other w (by rw [removed, if_neg own, found]) gone found'
      · rename_i small
        exact ⟨map, first :: rest, rfl, linked, .all (Nat.not_lt.mp small)⟩

/-! ## One call -/

variable {s next : LimitedMap K V} {k : K} {v : V}

omit [DecidableEq K] [LinearOrder V] [Std.LawfulEqOrd K] in
theorem mem_of_lookup (found : s.map[k]? = some v) : k ∈ s.map := by
  rw [Std.ExtTreeMap.mem_iff_isSome_getElem?, found]
  rfl

omit [DecidableEq K] [LinearOrder V] [Std.LawfulEqOrd K] in
theorem size_insert_absent (absent : k ∉ s.map) (v : V) : (s.map.insert k v).size = s.map.size + 1 := by
  rw [Std.ExtTreeMap.size_insert, if_neg fun present => absent (Std.ExtTreeMap.mem_iff_contains.mpr present)]

theorem erase_follows (linked : Linked s.map s.rmap) (bounded : s.map.size ≤ s.nMaxSize) (k : K) :
    ∃ next, s.erase k = some next ∧ Linked next.map next.rmap ∧ next.map = s.map.erase k ∧
      next.nMaxSize = s.nMaxSize ∧ next.map.size ≤ s.nMaxSize := by
  rw [erase]
  cases found : s.map[k]? with
  | none =>
      have same : s.map.erase k = s.map := by
        refine Std.ExtTreeMap.ext_getElem? fun other => ?_
        rw [lookup_erase]
        split
        · rename_i own
          rw [own, found]
        · rfl
      exact ⟨s, rfl, linked, same.symm, rfl, bounded⟩
  | some v =>
      have member := (linked.entries k v).mp found
      have linked' := linked.remove member
      refine ⟨_, if_pos member, linked', rfl, rfl, ?_⟩
      exact (Std.ExtTreeMap.size_erase_le).trans bounded

theorem update_follows (linked : Linked s.map s.rmap) (k : K) (v : V) :
    ∃ next, s.update k v = some next ∧ Linked next.map next.rmap ∧
      next.map = (if k ∈ s.map then s.map.insert k v else s.map) ∧
      next.nMaxSize = s.nMaxSize ∧ next.map.size = s.map.size := by
  rw [update]
  cases found : s.map[k]? with
  | none =>
      have absent : k ∉ s.map := lookup_eq_none_iff.mp found
      exact ⟨s, rfl, linked, (if_neg absent).symm, rfl, rfl⟩
  | some old =>
      have member := (linked.entries k old).mp found
      have erased : (s.map.erase k)[k]? = none := by rw [lookup_erase, if_pos rfl]
      have overwritten : (s.map.erase k).insert k v = s.map.insert k v := by
        refine Std.ExtTreeMap.ext_getElem? fun other => ?_
        rw [lookup_insert, lookup_insert, lookup_erase]
        split
        · rfl
        · rfl
      have linked' := (linked.remove member).push (v := v) erased
      rw [overwritten] at linked'
      have present := mem_of_lookup found
      have size : (s.map.insert k v).size = s.map.size := by
        rw [Std.ExtTreeMap.size_insert, if_pos (Std.ExtTreeMap.mem_iff_contains.mp present)]
      exact ⟨_, if_pos member, linked', (if_pos present).symm, rfl, size⟩

theorem insert_apart (linked : Linked s.map s.rmap) (absent : k ∉ s.map) (apart : s.map.size + 1 ≠ s.nMaxSize) (v : V) :
    s.insert k v = some { s with map := s.map.insert k v, rmap := insertEntry (v, k) s.rmap } ∧
      Linked (s.map.insert k v) (insertEntry (v, k) s.rmap) := by
  have missing : s.map[k]? = none := lookup_eq_none_iff.mpr absent
  refine ⟨?_, linked.push missing⟩
  have below : ¬ (s.nMaxSize ≠ 0 ∧ (s.map.insert k v).size = s.nMaxSize) := fun full =>
    apart ((size_insert_absent absent v).symm.trans full.2)
  simp [insert, absent, below]

omit [DecidableEq K] in
theorem insert_evicts (linked : Linked s.map s.rmap) (absent : k ∉ s.map) (full : s.map.size + 1 = s.nMaxSize)
    (filled : s.map.size ≠ 0) (v : V) : ∃ next, s.insert k v = some next ∧ ∃ old ∈ s.map, old ∉ next.map := by
  have reached : s.nMaxSize ≠ 0 ∧ (s.map.insert k v).size = s.nMaxSize :=
    ⟨by omega, (size_insert_absent absent v).trans full⟩
  cases listed : s.rmap with
  | nil =>
      have size := linked.size
      rw [listed] at size
      exact absurd size filled
  | cons first rest =>
      have old : first.2 ∈ s.map := mem_of_lookup ((linked.entries first.2 first.1).mpr (listed ▸ List.mem_cons_self))
      refine ⟨⟨(s.map.insert k v).erase first.2, insertEntry (v, k) rest, s.nMaxSize⟩, ?_, first.2, old, ?_⟩
      · simp [insert, absent, reached.1, reached.2, evict, listed]
      · simp

omit [DecidableEq K] [Std.LawfulEqOrd K] in
theorem insert_full (linked : Linked s.map s.rmap) (bounded : s.map.size ≤ s.nMaxSize) (absent : k ∉ s.map)
    (full : s.nMaxSize ≤ s.map.size + 1) (inserted : s.insert k v = some next) :
    next.map.size ≠ min (s.map.insert k v).size next.nMaxSize := by
  have count := size_insert_absent absent v
  rw [insert, if_neg absent] at inserted
  by_cases reached : s.nMaxSize ≠ 0 ∧ (s.map.insert k v).size = s.nMaxSize
  · simp only [if_pos reached, evict] at inserted
    cases listed : s.rmap with
    | nil => simp [listed] at inserted
    | cons first rest =>
        simp only [listed, Option.bind_eq_bind, Option.bind_some, Option.pure_def, Option.some.injEq] at inserted
        have old : first.2 ∈ s.map := mem_of_lookup ((linked.entries first.2 first.1).mpr (listed ▸ List.mem_cons_self))
        have present : first.2 ∈ s.map.insert k v := Std.ExtTreeMap.mem_insert.mpr (Or.inr old)
        subst inserted
        show ((s.map.insert k v).erase first.2).size ≠ min (s.map.insert k v).size s.nMaxSize
        rw [Std.ExtTreeMap.size_erase, if_pos (Std.ExtTreeMap.mem_iff_contains.mp present)]
        omega
  · simp only [if_neg reached, Option.bind_eq_bind, Option.bind_some, Option.pure_def, Option.some.injEq] at inserted
    subst inserted
    show (s.map.insert k v).size ≠ min (s.map.insert k v).size s.nMaxSize
    by_cases zero : s.nMaxSize = 0
    · omega
    · have different : (s.map.insert k v).size ≠ s.nMaxSize := fun full => reached ⟨zero, full⟩
      omega

/-- A call keeps the map as it should be just when it is no insertion into a map that is full or nearly so. -/
theorem call_follows_iff (linked : Linked s.map s.rmap) (bounded : s.map.size ≤ s.nMaxSize) {call : Call K V}
    (limited : ∀ size, call = .maxSize size → 0 < size) : (∃ next, s.call call = some next ∧ Linked next.map next.rmap ∧
      KeepsLargest (s.wanted call) next.map next.nMaxSize) ↔ s.Roomy call := by
  cases call with
  | insert k v =>
      by_cases absent : k ∉ s.map
      · rw [wanted, if_neg absent]
        constructor
        · rintro ⟨next, inserted, -, largest⟩ -
          refine Nat.lt_of_not_le fun full => ?_
          exact insert_full linked bounded absent full inserted largest.size
        · intro roomy
          have room := roomy absent
          obtain ⟨inserted, linked'⟩ := insert_apart linked absent (Nat.ne_of_lt room) v
          refine ⟨_, inserted, linked', .all ?_⟩
          rw [size_insert_absent absent v]
          exact Nat.le_of_lt room
      · have known := not_not.mp absent
        rw [wanted, if_pos known]
        refine iff_of_true ⟨s, if_pos known, linked, .all bounded⟩ fun missing => absurd known missing
  | erase k =>
      obtain ⟨next, result, linked', map, limit, small⟩ := erase_follows linked bounded k
      refine iff_of_true ⟨next, result, linked', ?_⟩ trivial
      rw [wanted, ← map]
      exact .all (limit ▸ small)
  | update k v =>
      obtain ⟨next, result, linked', map, limit, size⟩ := update_follows linked k v
      refine iff_of_true ⟨next, result, linked', ?_⟩ trivial
      rw [wanted, ← map]
      exact .all (size ▸ limit ▸ bounded)
  | maxSize size =>
      obtain ⟨kept, entries, result, linked', largest⟩ := trim_spec size linked
      refine iff_of_true ⟨⟨kept, entries, size⟩, ?_, linked', largest⟩ trivial
      simp [LimitedMap.call, maxSize, Nat.ne_of_gt (limited size rfl), result]

theorem follows_iff (linked : Linked s.map s.rmap) (bounded : s.map.size ≤ s.nMaxSize) {calls : List (Call K V)}
    (limited : ∀ size, .maxSize size ∈ calls → 0 < size) : s.Follows calls ↔ s.AlwaysRoomy calls := by
  induction calls generalizing s with
  | nil => exact Iff.rfl
  | cons call calls ih =>
      have first := call_follows_iff linked bounded fun size same => limited size (same ▸ List.mem_cons_self)
      have later {next : LimitedMap K V} (linked' : Linked next.map next.rmap)
          (largest : KeepsLargest (s.wanted call) next.map next.nMaxSize) : next.Follows calls ↔ next.AlwaysRoomy calls :=
        ih linked' (largest.size ▸ Nat.min_le_right _ _) fun size member => limited size (List.mem_cons_of_mem call member)
      constructor
      · rintro ⟨next, result, linked', largest, follows⟩
        refine ⟨first.mp ⟨next, result, linked', largest⟩, fun other same => ?_⟩
        rw [result, Option.some.injEq] at same
        exact same ▸ (later linked' largest).mp follows
      · rintro ⟨roomy, always⟩
        obtain ⟨next, result, linked', largest⟩ := first.mpr roomy
        exact ⟨next, result, linked', largest, (later linked' largest).mpr (always next result)⟩

/-- The map keeps the largest values, in step in both directions, just along the calls that never
insert a new key into a map that is full or has room for one entry only. -/
theorem limitedMap_keeps_largest (nMaxSizeIn : Nat) {calls : List (Call K V)}
    (limited : ∀ size, .maxSize size ∈ calls → 0 < size) :
    (new nMaxSizeIn : LimitedMap K V).Follows calls ↔ (new nMaxSizeIn : LimitedMap K V).AlwaysRoomy calls :=
  follows_iff (s := new nMaxSizeIn) .empty (Nat.zero_le _) limited

theorem limitedMap_keeps_largest_two :
    (new 4 : LimitedMap Nat Int).Follows [.insert 1 10, .insert 2 20] ↔
      (new 4 : LimitedMap Nat Int).AlwaysRoomy [.insert 1 10, .insert 2 20] :=
  limitedMap_keeps_largest 4 (by simp)

/-- The third entry of a map for three evicts one, which is larger than itself; and a map that was
shrunk to its limit grows beyond it. -/
theorem limitedMap_evicts_early :
    (¬ (new 3 : LimitedMap Nat Int).Follows [.insert 1 10, .insert 2 20, .insert 3 5]) ∧
    (([.insert 1 10, .insert 2 20, .insert 3 5].foldlM call (new 3 : LimitedMap Nat Int)).map fun s => s.map.toList) =
      some [(2, 20), (3, 5)] ∧
    (([.insert 1 10, .insert 2 20, .maxSize 1, .insert 3 5].foldlM call (new 4 : LimitedMap Nat Int)).map
      fun s => (s.map.size, s.nMaxSize)) = some (2, 1) := by
  refine ⟨fun follows => ?_, by decide, by decide⟩
  have roomy := (follows_iff (s := new 3) .empty (Nat.zero_le 3) (by simp)).mp follows
  have full := ((roomy.2 _ rfl).2 _ rfl).1
  exact absurd (full (by decide)) (by decide)

end LimitedMap

end BitCrystal
