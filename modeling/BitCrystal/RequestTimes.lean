import BitCrystal.LimitedMap
import BitCrystal.Primitives

namespace BitCrystal

open Data

/-! # When inventory is asked for -/

@[ext] structure CInv where
  type : Int
  hash : UInt256
deriving DecidableEq

namespace CInv

/-- `operator<`, by type and hash. -/
instance : Ord CInv := ⟨compareLex (compareOn type) (compareOn hash)⟩

instance : Std.TransOrd CInv := inferInstanceAs (Std.TransCmp (compareLex (compareOn type) (compareOn hash)))

instance : Std.LawfulEqOrd CInv where
  eq_of_compare {left right} same := by
    have parts : (compare left.type right.type).then (compare left.hash right.hash) = .eq := same
    rw [Ordering.then_eq_eq] at parts
    exact CInv.ext (Std.LawfulEqOrd.eq_of_compare parts.1) (Std.LawfulEqOrd.eq_of_compare parts.2)

end CInv

def MAX_INV_SZ : Nat := 50000

/-- What AskFor keeps: the map that all nodes share, its static variable, and the multimap of each node. -/
structure Requests where
  mapAlreadyAskedFor : LimitedMap CInv Int
  nLastTime : Int
  mapAskFor : Nat → List (Int × CInv)

/-- A call of AskFor for a node, with what GetTime returns to it. -/
structure Ask where
  node : Nat
  inv : CInv
  time : Int

/-- A scheduled request. -/
structure Request where
  inv : CInv
  nRequestTime : Int
  /-- Whether `mapAlreadyAskedFor.find(inv)` found nothing. -/
  fFirst : Bool

namespace Requests

def start : Requests := ⟨.new MAX_INV_SZ, 0, fun _ => []⟩

/-- `2 * 60 * 1000000` -/
def retryTime : Int := 2 * 60 * 1000000

/-- `update(it, nRequestTime)`, or `insert` for a new item. -/
def store (map : LimitedMap CInv Int) (inv : CInv) (nRequestTime : Int) : Option (LimitedMap CInv Int) :=
  match map.map[inv]? with
  | some _ => map.update inv nRequestTime
  | none => map.insert inv nRequestTime

def askFor (s : Requests) (ask : Ask) : Except Failure (Requests × Request) := do
  let it := s.mapAlreadyAskedFor.map[ask.inv]?
  -- Make sure not to reuse time indexes to keep things in the same order
  let nNow ← mulInt64 (← subInt64 ask.time 1) 1000000
  let nLastTime ← addInt64 s.nLastTime 1
  let nNow := max nNow nLastTime
  -- Each retry is 2 minutes after the last
  let nRequestTime := max (← addInt64 (it.getD 0) retryTime) nNow
  let mapAlreadyAskedFor ← expect (store s.mapAlreadyAskedFor ask.inv nRequestTime) (.undefined "limitedmap")
  let mapAskFor := Function.update s.mapAskFor ask.node
    (LimitedMap.insertEntry (nRequestTime, ask.inv) (s.mapAskFor ask.node))
  return (⟨mapAlreadyAskedFor, nNow, mapAskFor⟩, ⟨ask.inv, nRequestTime, it.isNone⟩)

/-- Calls one after the other, with the requests that they schedule. -/
def askAll (s : Requests) : List Ask → Except Failure (Requests × List Request)
  | [] => .ok (s, [])
  | ask :: rest => do
      let (next, request) ← s.askFor ask
      let (last, requests) ← next.askAll rest
      return (last, request :: requests)

/-! ## One call -/

/-- The new time index. -/
def now (s : Requests) (ask : Ask) : Int := max ((ask.time - 1) * 1000000) (s.nLastTime + 1)

/-- When the item was asked for last, or 0. -/
def latest (s : Requests) (inv : CInv) : Int := s.mapAlreadyAskedFor.map[inv]?.getD 0

/-- No computation leaves the range of its type. -/
structure InRange (s : Requests) (ask : Ask) : Prop where
  seconds : int64Range (ask.time - 1)
  micros : int64Range ((ask.time - 1) * 1000000)
  index : int64Range (s.nLastTime + 1)
  retry : int64Range (s.latest ask.inv + retryTime)

/-- Both directions of the shared map are in step, with its limit. -/
structure Sound (s : Requests) : Prop where
  linked : LimitedMap.Linked s.mapAlreadyAskedFor.map s.mapAlreadyAskedFor.rmap
  limit : s.mapAlreadyAskedFor.nMaxSize = MAX_INV_SZ

def requestTime (s : Requests) (ask : Ask) : Int := max (s.latest ask.inv + retryTime) (s.now ask)

/-- The request of a call, and what it leaves in the shared map and the static variable. -/
structure Asked (s : Requests) (ask : Ask) (next : Requests) (request : Request) : Prop where
  scheduled : request = ⟨ask.inv, s.requestTime ask, s.mapAlreadyAskedFor.map[ask.inv]?.isNone⟩
  map : next.mapAlreadyAskedFor.map = s.mapAlreadyAskedFor.map.insert ask.inv (s.requestTime ask)
  nLastTime : next.nLastTime = s.now ask
  sound : next.Sound

theorem sound_start : start.Sound := ⟨.empty, rfl⟩

variable {s next : Requests} {ask : Ask} {request : Request}

theorem askFor_inRange (asked : s.askFor ask = .ok (next, request)) : s.InRange ask := by
  simp only [askFor, bind_eq_ok, subInt64_eq_ok, mulInt64_eq_ok, addInt64_eq_ok] at asked
  obtain ⟨seconds, ⟨inside, rfl⟩, micros, ⟨micros', -⟩, index, ⟨index', -⟩, retry, ⟨retry', -⟩, -⟩ := asked
  exact ⟨inside, micros', index', retry'⟩

theorem askFor_eq (inRange : s.InRange ask) {map : LimitedMap CInv Int}
    (stored : store s.mapAlreadyAskedFor ask.inv (s.requestTime ask) = some map) :
    s.askFor ask = .ok (⟨map, s.now ask, Function.update s.mapAskFor ask.node (LimitedMap.insertEntry
      (s.requestTime ask, ask.inv) (s.mapAskFor ask.node))⟩,
      ⟨ask.inv, s.requestTime ask, s.mapAlreadyAskedFor.map[ask.inv]?.isNone⟩) := by
  have retry : int64Range (s.mapAlreadyAskedFor.map[ask.inv]?.getD 0 + retryTime) := inRange.retry
  have stored' : store s.mapAlreadyAskedFor ask.inv (max (s.mapAlreadyAskedFor.map[ask.inv]?.getD 0 + retryTime)
      (max ((ask.time - 1) * 1000000) (s.nLastTime + 1))) = some map := stored
  simp only [askFor, subInt64, if_pos inRange.seconds, mulInt64, if_pos inRange.micros, addInt64,
    if_pos inRange.index, if_pos retry, ok_bind, stored', expect]
  rfl

theorem store_apart {map : LimitedMap CInv Int} (linked : LimitedMap.Linked map.map map.rmap) {inv : CInv}
    (apart : inv ∉ map.map → map.map.size + 1 ≠ map.nMaxSize) (nRequestTime : Int) :
    ∃ next, store map inv nRequestTime = some next ∧ next.map = map.map.insert inv nRequestTime ∧
      LimitedMap.Linked next.map next.rmap ∧ next.nMaxSize = map.nMaxSize := by
  rw [store]
  cases found : map.map[inv]? with
  | some old =>
      have present := LimitedMap.mem_of_lookup found
      obtain ⟨next, result, linked', same, limit, -⟩ := LimitedMap.update_follows linked inv nRequestTime
      rw [if_pos present] at same
      exact ⟨next, result, same, linked', limit⟩
  | none =>
      have absent := lookup_eq_none_iff.mp found
      obtain ⟨result, linked'⟩ := LimitedMap.insert_apart linked absent (apart absent) nRequestTime
      exact ⟨_, result, rfl, linked', rfl⟩

/-- The shared map takes the time of a request, unless that evicts an entry. -/
theorem store_spec (sound : s.Sound) (inv : CInv) (nRequestTime : Int) :
    ∃ next, store s.mapAlreadyAskedFor inv nRequestTime = some next ∧
      ((∃ old ∈ s.mapAlreadyAskedFor.map, old ∉ next.map) ∨
        next.map = s.mapAlreadyAskedFor.map.insert inv nRequestTime ∧ LimitedMap.Linked next.map next.rmap ∧
          next.nMaxSize = s.mapAlreadyAskedFor.nMaxSize) := by
  by_cases apart : inv ∉ s.mapAlreadyAskedFor.map → s.mapAlreadyAskedFor.map.size + 1 ≠ s.mapAlreadyAskedFor.nMaxSize
  · obtain ⟨next, result, stored⟩ := store_apart sound.linked apart nRequestTime
    exact ⟨next, result, Or.inr stored⟩
  · obtain ⟨absent, full⟩ := Classical.not_imp.mp apart
    have full := not_not.mp full
    have filled : s.mapAlreadyAskedFor.map.size ≠ 0 := by
      rw [sound.limit, MAX_INV_SZ] at full
      omega
    obtain ⟨next, result, lost⟩ := LimitedMap.insert_evicts sound.linked absent full filled nRequestTime
    refine ⟨next, ?_, Or.inl lost⟩
    rw [store, lookup_eq_none_iff.mpr absent]
    exact result

/-- The entries that the map has after a call, if it returns. -/
def Retains (s : Requests) (ask : Ask) : Prop :=
  ∀ next request, s.askFor ask = .ok (next, request) →
    ∀ inv ∈ s.mapAlreadyAskedFor.map, inv ∈ next.mapAlreadyAskedFor.map

theorem askFor_asked (sound : s.Sound) (inRange : s.InRange ask) (retains : s.Retains ask) :
    ∃ next request, s.askFor ask = .ok (next, request) ∧ s.Asked ask next request := by
  obtain ⟨map, stored, lost | ⟨same, linked, limit⟩⟩ := store_spec sound ask.inv (s.requestTime ask)
  · obtain ⟨old, member, gone⟩ := lost
    exact absurd (retains _ _ (askFor_eq inRange stored) old member) gone
  · exact ⟨_, _, askFor_eq inRange stored, rfl, same, rfl, linked, limit.trans sound.limit⟩

/-! ## Runs -/

/-- No call evicts an entry. -/
def RetainsAll (s : Requests) : List Ask → Prop
  | [] => True
  | ask :: rest => s.Retains ask ∧ ∀ next request, s.askFor ask = .ok (next, request) → next.RetainsAll rest

/-- A call in range, whose time index is more than two minutes after 1970 when it asks for a new item
and others were asked for before. -/
def Timely (s : Requests) (ask : Ask) : Prop :=
  s.InRange ask ∧ (ask.inv ∉ s.mapAlreadyAskedFor.map → s.mapAlreadyAskedFor.map.size ≠ 0 → retryTime < s.now ask)

def AlwaysTimely (s : Requests) : List Ask → Prop
  | [] => True
  | ask :: rest => s.Timely ask ∧ ∀ next request, s.askFor ask = .ok (next, request) → next.AlwaysTimely rest

def firstTimes (requests : List Request) : List Int :=
  (requests.filter Request.fFirst).map Request.nRequestTime

def lastTime (requests : List Request) (inv : CInv) : Option Int :=
  (requests.reverse.find? fun request => request.inv = inv).map Request.nRequestTime

/-- Requests for one item are two minutes apart. -/
def Spaced (requests : List Request) : Prop :=
  requests.Pairwise fun first second => first.inv = second.inv → first.nRequestTime + retryTime ≤ second.nRequestTime

/-- The requests of a run from `s` to `last`, after a first request at `earlier`. -/
structure Scheduled (s : Requests) (earlier : Option Int) (last : Requests) (requests : List Request) : Prop where
  spaced : Spaced requests
  after : ∀ request ∈ requests, ∀ old, s.mapAlreadyAskedFor.map[request.inv]? = some old →
    old + retryTime ≤ request.nRequestTime
  latest : ∀ inv : CInv, last.mapAlreadyAskedFor.map[inv]? =
    (lastTime requests inv).or s.mapAlreadyAskedFor.map[inv]?
  ordered : (earlier.toList ++ firstTimes requests).Pairwise (· < ·)

/-- `earlier` is the time of the last first request. -/
structure Earlier (s : Requests) (earlier : Option Int) : Prop where
  none_iff : earlier = none ↔ s.mapAlreadyAskedFor.map.size = 0
  bounds : ∀ time, earlier = some time → retryTime ≤ time ∧ time ≤ max retryTime s.nLastTime

theorem earlier_start : start.Earlier none :=
  ⟨iff_of_true rfl rfl, nofun⟩

theorem lastTime_cons (request : Request) (requests : List Request) (inv : CInv) :
    lastTime (request :: requests) inv =
      (lastTime requests inv).or (if request.inv = inv then some request.nRequestTime else none) := by
  rw [lastTime, lastTime, List.reverse_cons, List.find?_append]
  cases requests.reverse.find? fun request => request.inv = inv with
  | some found => rfl
  | none =>
      rw [List.find?_singleton]
      by_cases same : request.inv = inv <;> simp [same]

def earlierAfter (s : Requests) (ask : Ask) (earlier : Option Int) : Option Int :=
  if s.mapAlreadyAskedFor.map[ask.inv]?.isNone then some (s.requestTime ask) else earlier

section

variable {earlier : Option Int} {last : Requests} {requests : List Request}

theorem Asked.lookup (asked : s.Asked ask next request) (inv : CInv) : next.mapAlreadyAskedFor.map[inv]? =
    if inv = ask.inv then some (s.requestTime ask) else s.mapAlreadyAskedFor.map[inv]? := by
  rw [asked.map, lookup_insert]

theorem lastTime_lt_now (s : Requests) (ask : Ask) : s.nLastTime < s.now ask := by
  unfold now
  omega

theorem requestTime_new (absent : s.mapAlreadyAskedFor.map[ask.inv]? = none) :
    s.requestTime ask = max retryTime (s.now ask) := by
  rw [requestTime, latest, absent]
  exact congrArg (max · (s.now ask)) (Int.zero_add retryTime)

theorem Earlier.step (at' : s.Earlier earlier) (asked : s.Asked ask next request) :
    next.Earlier (s.earlierAfter ask earlier) := by
  have filled : next.mapAlreadyAskedFor.map.size ≠ 0 := by
    rw [asked.map, Std.ExtTreeMap.size_insert]
    split
    · rename_i present
      exact fun zero => by simp [Std.ExtTreeMap.eq_empty_iff_size_eq_zero.mpr zero] at present
    · exact Nat.succ_ne_zero _
  have later := lastTime_lt_now s ask
  rw [earlierAfter]
  cases found : s.mapAlreadyAskedFor.map[ask.inv]? with
  | none =>
      refine ⟨iff_of_false nofun filled, fun time same => ?_⟩
      obtain rfl := Option.some.inj same
      rw [requestTime_new found, asked.nLastTime]
      exact ⟨le_max_left _ _, le_refl _⟩
  | some old =>
      have some' : earlier ≠ none := fun nothing => by
        have zero := at'.none_iff.mp nothing
        rw [Std.ExtTreeMap.eq_empty_iff_size_eq_zero.mpr zero] at found
        simp at found
      refine ⟨iff_of_false some' filled, fun time same => ?_⟩
      obtain ⟨low, high⟩ := at'.bounds time same
      rw [asked.nLastTime]
      exact ⟨low, high.trans (max_le_max_left _ (le_of_lt later))⟩

theorem firstTimes_cons (request : Request) (requests : List Request) : firstTimes (request :: requests) =
    if request.fFirst then request.nRequestTime :: firstTimes requests else firstTimes requests := by
  rw [firstTimes, firstTimes, List.filter_cons]
  split
  · rw [List.map_cons]
  · rfl

theorem Asked.latest_cons (asked : s.Asked ask next request) (inv : CInv) :
    (lastTime (request :: requests) inv).or s.mapAlreadyAskedFor.map[inv]? =
      (lastTime requests inv).or next.mapAlreadyAskedFor.map[inv]? := by
  rw [lastTime_cons, Option.or_assoc, asked.lookup, asked.scheduled]
  by_cases same : ask.inv = inv
  · rw [if_pos same, if_pos same.symm, Option.some_or]
  · rw [if_neg same, if_neg (Ne.symm same), Option.none_or]

theorem ordered_cons_iff (at' : s.Earlier earlier) (asked : s.Asked ask next request) :
    (earlier.toList ++ firstTimes (request :: requests)).Pairwise (· < ·) ↔
      (ask.inv ∉ s.mapAlreadyAskedFor.map → s.mapAlreadyAskedFor.map.size ≠ 0 → retryTime < s.now ask) ∧
        ((s.earlierAfter ask earlier).toList ++ firstTimes requests).Pairwise (· < ·) := by
  rw [firstTimes_cons, earlierAfter, asked.scheduled]
  cases found : s.mapAlreadyAskedFor.map[ask.inv]? with
  | some old =>
      have present := LimitedMap.mem_of_lookup found
      exact (and_iff_right fun absent => absurd present absent).symm
  | none =>
      have absent := lookup_eq_none_iff.mp found
      have later := lastTime_lt_now s ask
      simp only [Option.isNone_none, if_true, requestTime_new found, Option.toList_some, List.singleton_append]
      cases before : earlier with
      | none =>
          have empty := at'.none_iff.mp before
          exact (and_iff_right fun _ filled => absurd empty filled).symm
      | some time =>
          obtain ⟨low, high⟩ := at'.bounds time before
          have filled : s.mapAlreadyAskedFor.map.size ≠ 0 := fun zero => by
            rw [before] at at'
            exact Option.some_ne_none time (at'.none_iff.mpr zero)
          rw [Option.toList_some, List.singleton_append, List.pairwise_cons]
          constructor
          · rintro ⟨least, ordered⟩
            have less := least _ List.mem_cons_self
            exact ⟨fun _ _ => by omega, ordered⟩
          · rintro ⟨late, ordered⟩
            have early := late absent filled
            refine ⟨fun other member => ?_, ordered⟩
            rcases List.mem_cons.mp member with rfl | inside
            · omega
            · have more := (List.pairwise_cons.mp ordered).1 other inside
              omega

/-- The requests of a run are as they should be, when those after the first call are and a new item is not
asked for too early. -/
theorem scheduled_cons_iff (at' : s.Earlier earlier) (asked : s.Asked ask next request) :
    s.Scheduled earlier last (request :: requests) ↔
      (ask.inv ∉ s.mapAlreadyAskedFor.map → s.mapAlreadyAskedFor.map.size ≠ 0 → retryTime < s.now ask) ∧
        next.Scheduled (s.earlierAfter ask earlier) last requests := by
  have ordered : (earlier.toList ++ firstTimes (request :: requests)).Pairwise (· < ·) ↔ _ := ordered_cons_iff at' asked
  have latest (inv : CInv) : (lastTime (request :: requests) inv).or s.mapAlreadyAskedFor.map[inv]? = _ :=
    asked.latest_cons inv
  have lookup := asked.lookup
  have scheduled := asked.scheduled
  subst scheduled
  constructor
  · intro whole
    have spaced := List.pairwise_cons.mp whole.spaced
    obtain ⟨late, ordered'⟩ := ordered.mp whole.ordered
    refine ⟨late, spaced.2, fun later member old found => ?_, fun inv => ?_, ordered'⟩
    · rw [lookup] at found
      split at found
      · rename_i same
        obtain rfl := Option.some.inj found
        exact spaced.1 later member same.symm
      · exact whole.after later (List.mem_cons_of_mem _ member) old found
    · rw [whole.latest, latest]
  · rintro ⟨late, rest⟩
    have own (old : Int) (found : s.mapAlreadyAskedFor.map[ask.inv]? = some old) :
        old + retryTime ≤ s.requestTime ask := by
      rw [requestTime, Requests.latest, found]
      exact le_max_left _ _
    refine ⟨List.pairwise_cons.mpr ⟨fun later member same => ?_, rest.spaced⟩, fun later member old found => ?_,
      fun inv => ?_, ordered.mpr ⟨late, rest.ordered⟩⟩
    · refine rest.after later member (s.requestTime ask) ?_
      rw [lookup, if_pos same.symm]
    · rcases List.mem_cons.mp member with rfl | inside
      · exact own old found
      · by_cases same : later.inv = ask.inv
        · have spaced := rest.after later inside (s.requestTime ask) (by rw [lookup, if_pos same])
          have first := own old (same ▸ found)
          have positive : 0 ≤ retryTime := by decide
          omega
        · exact rest.after later inside old (by rw [lookup, if_neg same, found])
    · rw [rest.latest, latest]

theorem askAll_cons (asked : s.askFor ask = .ok (next, request)) (rest : List Ask) :
    s.askAll (ask :: rest) = (next.askAll rest).map fun result => (result.1, request :: result.2) := by
  rw [askAll, asked, ok_bind]
  dsimp only
  cases next.askAll rest with
  | ok result => rfl
  | error reason => rfl

theorem scheduled_iff (sound : s.Sound) (at' : s.Earlier earlier) {asks : List Ask} (retains : s.RetainsAll asks) :
    (∃ last requests, s.askAll asks = .ok (last, requests) ∧ s.Scheduled earlier last requests) ↔
      s.AlwaysTimely asks := by
  induction asks generalizing s earlier with
  | nil =>
      refine iff_of_true ⟨s, [], rfl, List.Pairwise.nil, nofun, fun inv => rfl, ?_⟩ trivial
      cases earlier <;> simp [firstTimes]
  | cons ask rest ih =>
      constructor
      · rintro ⟨last, requests, run, scheduled⟩
        obtain ⟨⟨next, request⟩, first, -⟩ := bind_eq_ok.mp run
        have inRange := askFor_inRange first
        obtain ⟨next', request', same, asked⟩ := askFor_asked sound inRange retains.1
        rw [first, Except.ok.injEq, Prod.mk.injEq] at same
        obtain ⟨rfl, rfl⟩ := same
        rw [askAll_cons first] at run
        obtain ⟨⟨last', requests'⟩, later, same⟩ := ok_of_map_eq_ok run
        obtain ⟨rfl, rfl⟩ := Prod.mk.inj same
        obtain ⟨late, rest'⟩ := (scheduled_cons_iff at' asked).mp scheduled
        refine ⟨⟨inRange, late⟩, fun other answer same => ?_⟩
        rw [first, Except.ok.injEq, Prod.mk.injEq] at same
        obtain ⟨rfl, rfl⟩ := same
        exact (ih asked.sound (at'.step asked) (retains.2 _ _ first)).mp ⟨last', requests', later, rest'⟩
      · rintro ⟨⟨inRange, late⟩, always⟩
        obtain ⟨next, request, first, asked⟩ := askFor_asked sound inRange retains.1
        obtain ⟨last, requests, later, rest'⟩ :=
          (ih asked.sound (at'.step asked) (retains.2 _ _ first)).mpr (always _ _ first)
        refine ⟨last, request :: requests, ?_, (scheduled_cons_iff at' asked).mpr ⟨late, rest'⟩⟩
        rw [askAll_cons first, later]
        rfl

theorem retainsAll_of_few (sound : s.Sound) {asks : List Ask}
    (few : s.mapAlreadyAskedFor.map.size + asks.length < MAX_INV_SZ) : s.RetainsAll asks := by
  induction asks generalizing s with
  | nil => trivial
  | cons ask rest ih =>
      rw [List.length_cons] at few
      have apart : s.mapAlreadyAskedFor.map.size + 1 ≠ s.mapAlreadyAskedFor.nMaxSize := by
        rw [sound.limit]
        omega
      have asked {next : Requests} {request : Request} (run : s.askFor ask = .ok (next, request)) :
          s.Asked ask next request := by
        obtain ⟨map, stored, same, linked, limit⟩ := store_apart sound.linked (fun _ => apart) (s.requestTime ask)
        rw [askFor_eq (askFor_inRange run) stored, Except.ok.injEq, Prod.mk.injEq] at run
        obtain ⟨rfl, rfl⟩ := run
        exact ⟨rfl, same, rfl, linked, limit.trans sound.limit⟩
      refine ⟨fun next request run inv member => ?_, fun next request run => ih (asked run).sound ?_⟩
      · rw [(asked run).map]
        exact Std.ExtTreeMap.mem_insert.mpr (Or.inr member)
      · rw [(asked run).map]
        have size := Std.ExtTreeMap.size_insert_le (t := s.mapAlreadyAskedFor.map) (k := ask.inv) (v := s.requestTime ask)
        omega

end

/-- Without evictions, requests for one item are two minutes apart, the map has the last of them, and new items
are scheduled in the order of the calls, just when no time index is used twice for lack of two minutes since
1970. -/
theorem askFor_schedule {asks : List Ask} (retains : start.RetainsAll asks) :
    (∃ last requests, start.askAll asks = .ok (last, requests) ∧ Spaced requests ∧
      (∀ inv : CInv, last.mapAlreadyAskedFor.map[inv]? = lastTime requests inv) ∧
      (firstTimes requests).Pairwise (· < ·)) ↔ start.AlwaysTimely asks := by
  refine Iff.trans ⟨?_, ?_⟩ (scheduled_iff sound_start earlier_start retains)
  · rintro ⟨last, requests, run, spaced, latest, ordered⟩
    refine ⟨last, requests, run, spaced, fun request _ old found => ?_, fun inv => ?_, ordered⟩
    · simp [start, LimitedMap.new] at found
    · rw [latest]
      exact Option.or_none.symm
  · rintro ⟨last, requests, run, scheduled⟩
    refine ⟨last, requests, run, scheduled.spaced, fun inv => ?_, scheduled.ordered⟩
    rw [scheduled.latest]
    exact Option.or_none

end Requests

namespace Sample

def blockInv (hash : UInt256) : CInv := ⟨2, hash⟩

/-- Two new items, and the first one again, with a clock that stands still. -/
def standing (time : Int) : List Ask :=
  [⟨0, blockInv 7, time⟩, ⟨1, blockInv 8, time⟩, ⟨1, blockInv 7, time⟩]

end Sample

open Sample Requests in
theorem Requests.askFor_schedule_standing :
    (∃ last requests, start.askAll (standing 1000) = .ok (last, requests) ∧ Spaced requests ∧
      (∀ inv : CInv, last.mapAlreadyAskedFor.map[inv]? = lastTime requests inv) ∧
      (firstTimes requests).Pairwise (· < ·)) ↔ start.AlwaysTimely (standing 1000) :=
  askFor_schedule (retainsAll_of_few sound_start (by decide))

open Sample Requests in
/-- One second after 1970 both new items are scheduled at the same time. -/
theorem Requests.askFor_schedule_epoch : start.RetainsAll (standing 1) ∧
    (start.askAll (standing 1)).map (fun result => firstTimes result.2) = .ok [120000000, 120000000] ∧
    ¬ ∃ last requests, start.askAll (standing 1) = .ok (last, requests) ∧ (firstTimes requests).Pairwise (· < ·) := by
  have times : (start.askAll (standing 1)).map (fun result => firstTimes result.2) = .ok [120000000, 120000000] := by
    decide
  refine ⟨retainsAll_of_few sound_start (by decide), times, ?_⟩
  rintro ⟨last, requests, run, ordered⟩
  rw [run] at times
  have both : firstTimes requests = [120000000, 120000000] := Except.ok.inj times
  rw [both] at ordered
  exact absurd ordered (by decide)

end BitCrystal
