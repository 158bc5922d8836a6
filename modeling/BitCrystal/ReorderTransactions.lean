import Mathlib.Data.List.Pairwise
import BitCrystal.Data.Pages
import BitCrystal.Primitives

namespace BitCrystal

open Data

/-! # The order of the wallet's transactions

CWalletDB::ReorderTransactions gives numbers to the transactions and accounting entries
that have none, and moves the others up. -/

/-- A transaction of the wallet or an accounting entry of the wallet file. -/
inductive OrderKey where
  | tx (hash : UInt256)
  | acentry (strAccount : String) (nEntryNo : UInt64)
deriving DecidableEq

/-- `pacentry != 0` -/
def OrderKey.isEntry : OrderKey → Bool
  | .tx _ => false
  | .acentry _ _ => true

/-- The wallet with what ReorderTransactions reads and writes. -/
structure OrderedWallet where
  /-- The hashes of the map with nTimeReceived, in their order -/
  mapWallet : List (UInt256 × UInt32)
  /-- The keys of the accounting entries with nTime, in the order of the cursor -/
  acentries : List ((String × UInt64) × Int)
  nOrderPos : OrderKey → Int
  nOrderPosNext : Int
  mapWallet_nodup : (mapWallet.map Prod.fst).Nodup
  acentries_nodup : (acentries.map Prod.fst).Nodup

def entryKey (entry : (String × UInt64) × Int) : OrderKey := .acentry entry.1.1 entry.1.2

/-- What the loop changes. -/
structure Reordering where
  nOrderPos : OrderKey → Int
  nOrderPosNext : Int
  nOrderPosOffsets : List Int

/-- `nOrderPosOff` -/
def orderPosOff (nOrderPosOffsets : List Int) (nOrderPos : Int) : Nat :=
  nOrderPosOffsets.countP fun nOffsetStart => nOffsetStart ≤ nOrderPos

namespace Reordering

/-- A turn of the loop; `written` says how WriteTx and WriteAccountingEntry answer. -/
def turn (written : OrderKey → Bool) (s : Reordering) (key : OrderKey) : Except Failure Reordering :=
  if s.nOrderPos key = -1 then do
    let nOrderPosNext ← addInt64 s.nOrderPosNext 1
    require (key.isEntry → written key) (.refused "DB_LOAD_FAIL")
    return {
      nOrderPos := Function.update s.nOrderPos key s.nOrderPosNext
      nOrderPosNext
      nOrderPosOffsets := s.nOrderPosOffsets ++ [s.nOrderPosNext] }
  else do
    let nOrderPosOff := orderPosOff s.nOrderPosOffsets (s.nOrderPos key)
    let nOrderPos ← addInt64 (s.nOrderPos key) nOrderPosOff
    let after ← addInt64 nOrderPos 1
    require (nOrderPosOff ≠ 0 → written key) (.refused "DB_LOAD_FAIL")
    return {
      s with
      nOrderPos := Function.update s.nOrderPos key nOrderPos
      nOrderPosNext := max s.nOrderPosNext after }

end Reordering

namespace OrderedWallet

def keys (w : OrderedWallet) : List OrderKey := w.mapWallet.map (fun entry => .tx entry.1) ++ w.acentries.map entryKey

def listAccountCreditDebit (w : OrderedWallet) (strAccount : String) : List ((String × UInt64) × Int) :=
  if strAccount = "*" then w.acentries else w.acentries.filter fun entry => entry.1.1 = strAccount

/-- The multimap, by nTimeReceived and nTime -/
def txByTime (w : OrderedWallet) : List (Int × OrderKey) :=
  (w.mapWallet.map (fun entry => ((entry.2.toNat : Int), OrderKey.tx entry.1)) ++
    (w.listAccountCreditDebit "").map fun entry => (entry.2, entryKey entry)).foldl (insertByKey Prod.fst) []

def reorderTransactions (written : OrderKey → Bool) (w : OrderedWallet) : Except Failure OrderedWallet := do
  let s ← (w.txByTime.map Prod.snd).foldlM (Reordering.turn written) ⟨w.nOrderPos, 0, []⟩
  return { w with nOrderPos := s.nOrderPos, nOrderPosNext := s.nOrderPosNext }

end OrderedWallet

/-! ## Moving up -/

/-- A position with the offsets up to it. -/
def moved (nOrderPosOffsets : List Int) (nOrderPos : Int) : Int := nOrderPos + orderPosOff nOrderPosOffsets nOrderPos

theorem orderPosOff_mono (offsets : List Int) {p q : Int} (le : p ≤ q) : orderPosOff offsets p ≤ orderPosOff offsets q := by
  apply List.countP_mono_left
  intro offset _ early
  simp only [decide_eq_true_eq] at early ⊢
  exact early.trans le

theorem moved_strictMono (offsets : List Int) {p q : Int} (lt : p < q) : moved offsets p < moved offsets q := by
  have le := orderPosOff_mono offsets lt.le
  rw [moved, moved]
  omega

theorem le_moved (offsets : List Int) (p : Int) : p ≤ moved offsets p := by
  rw [moved]
  omega

theorem moved_nil (p : Int) : moved [] p = p := Int.add_zero p

theorem moved_append {offsets more : List Int} {p : Int} (beyond : ∀ offset ∈ more, p < offset) :
    moved (offsets ++ more) p = moved offsets p := by
  have none : orderPosOff more p = 0 := by
    rw [orderPosOff, List.countP_eq_zero]
    intro offset member
    simpa using beyond offset member
  rw [moved, moved, orderPosOff, List.countP_append, ← orderPosOff, ← orderPosOff, none, Nat.add_zero]

/-! ## The turns -/

/-- An entry with its position, and the state of the loop before its turn. -/
structure ReorderTurn where
  key : OrderKey
  nOrderPos : Int
  nOrderPosNext : Int
  nOrderPosOffsets : List Int

/-- The number that the entry gets. -/
def ReorderTurn.number (turn : ReorderTurn) : Int :=
  if turn.nOrderPos = -1 then turn.nOrderPosNext else moved turn.nOrderPosOffsets turn.nOrderPos

theorem ReorderTurn.number_of_unordered {turn : ReorderTurn} (unordered : turn.nOrderPos = -1) :
    turn.number = turn.nOrderPosNext :=
  if_pos unordered

theorem ReorderTurn.number_of_ordered {turn : ReorderTurn} (ordered : turn.nOrderPos ≠ -1) :
    turn.number = moved turn.nOrderPosOffsets turn.nOrderPos :=
  if_neg ordered

def turnsFrom (nOrderPos : OrderKey → Int) (nOrderPosNext : Int) (nOrderPosOffsets : List Int) :
    List OrderKey → List ReorderTurn
  | [] => []
  | key :: rest =>
      let turn : ReorderTurn := ⟨key, nOrderPos key, nOrderPosNext, nOrderPosOffsets⟩
      turn :: turnsFrom nOrderPos (max nOrderPosNext (turn.number + 1))
        (if nOrderPos key = -1 then nOrderPosOffsets ++ [nOrderPosNext] else nOrderPosOffsets) rest

/-- The numbers of the entries that had none. -/
def newNumbers (turns : List ReorderTurn) : List Int :=
  (turns.filter fun turn => turn.nOrderPos = -1).map ReorderTurn.number

variable {nOrderPos nOrderPos' : OrderKey → Int} {next : Int} {offsets : List Int} {keys : List OrderKey}
  {key : OrderKey}

theorem turnsFrom_congr (same : ∀ key ∈ keys, nOrderPos' key = nOrderPos key) :
    turnsFrom nOrderPos' next offsets keys = turnsFrom nOrderPos next offsets keys := by
  induction keys generalizing next offsets with
  | nil => rfl
  | cons key rest ih =>
      rw [turnsFrom, turnsFrom, same key List.mem_cons_self]
      rw [ih fun other member => same other (List.mem_cons_of_mem key member)]

theorem map_key_turnsFrom : (turnsFrom nOrderPos next offsets keys).map ReorderTurn.key = keys := by
  induction keys generalizing next offsets with
  | nil => rfl
  | cons key rest ih =>
      rw [turnsFrom, List.map_cons, ih]

theorem nOrderPos_of_mem_turnsFrom {turn : ReorderTurn} (member : turn ∈ turnsFrom nOrderPos next offsets keys) :
    turn.nOrderPos = nOrderPos turn.key := by
  induction keys generalizing next offsets with
  | nil => cases member
  | cons key rest ih =>
      rw [turnsFrom] at member
      rcases List.mem_cons.mp member with rfl | later
      · rfl
      · exact ih later

theorem newNumbers_cons (turn : ReorderTurn) (turns : List ReorderTurn) :
    newNumbers (turn :: turns) = (if turn.nOrderPos = -1 then [turn.nOrderPosNext] else []) ++ newNumbers turns := by
  rw [newNumbers, newNumbers]
  by_cases unordered : turn.nOrderPos = -1
  · rw [List.filter_cons_of_pos (by simpa using unordered), List.map_cons, if_pos unordered, ReorderTurn.number,
      if_pos unordered]
    rfl
  · rw [List.filter_cons_of_neg (by simpa using unordered), if_neg unordered]
    rfl

theorem le_newNumbers : ∀ number ∈ newNumbers (turnsFrom nOrderPos next offsets keys), next ≤ number := by
  induction keys generalizing next offsets with
  | nil => exact List.forall_mem_nil _
  | cons key rest ih =>
      intro number member
      rw [turnsFrom, newNumbers_cons] at member
      rcases List.mem_append.mp member with own | later
      · split at own
        · rw [List.mem_singleton.mp own]
        · cases own
      · exact (le_max_left _ _).trans (ih number later)

theorem offsets_step (key : OrderKey) (rest : List OrderKey) :
    offsets ++ newNumbers (turnsFrom nOrderPos next offsets (key :: rest)) =
      (if nOrderPos key = -1 then offsets ++ [next] else offsets) ++
        newNumbers (turnsFrom nOrderPos (max next ((⟨key, nOrderPos key, next, offsets⟩ : ReorderTurn).number + 1))
          (if nOrderPos key = -1 then offsets ++ [next] else offsets) rest) := by
  rw [turnsFrom, newNumbers_cons]
  by_cases unordered : nOrderPos key = -1
  · simp only [if_pos unordered, List.append_assoc]
  · simp only [if_neg unordered, List.nil_append]

/-- A position is moved by the offsets at the end as it was at its turn, and meets none of the later ones. -/
theorem number_eq_moved : ∀ turn ∈ turnsFrom nOrderPos next offsets keys, turn.nOrderPos ≠ -1 →
    turn.number = moved (offsets ++ newNumbers (turnsFrom nOrderPos next offsets keys)) turn.nOrderPos ∧
      (turn.number ∈ offsets ++ newNumbers (turnsFrom nOrderPos next offsets keys) ↔
        turn.number ∈ turn.nOrderPosOffsets) := by
  induction keys generalizing next offsets with
  | nil => exact List.forall_mem_nil _
  | cons key rest ih =>
      intro turn member ordered
      rw [offsets_step]
      rw [turnsFrom] at member
      rcases List.mem_cons.mp member with rfl | later
      · dsimp only at ordered
        have value : (⟨key, nOrderPos key, next, offsets⟩ : ReorderTurn).number = moved offsets (nOrderPos key) :=
          if_neg ordered
        rw [if_neg ordered, value]
        have beyond : ∀ number ∈ newNumbers (turnsFrom nOrderPos (max next (moved offsets (nOrderPos key) + 1)) offsets
            rest), moved offsets (nOrderPos key) < number := by
          intro number inRest
          have le := le_newNumbers number inRest
          have room := le_max_right next (moved offsets (nOrderPos key) + 1)
          omega
        constructor
        · exact (moved_append fun number inRest => (le_moved offsets _).trans_lt (beyond number inRest)).symm
        · rw [List.mem_append]
          exact ⟨fun either => either.resolve_right fun inRest => lt_irrefl _ (beyond _ inRest), .inl⟩
      · exact ih turn later ordered

theorem newNumbers_pairwise : (turnsFrom nOrderPos next offsets keys).Pairwise fun earlier later =>
    later.nOrderPos = -1 → earlier.number < later.number := by
  induction keys generalizing next offsets with
  | nil => exact List.Pairwise.nil
  | cons key rest ih =>
      rw [turnsFrom]
      refine List.pairwise_cons.mpr ⟨fun later member unordered => ?_, ih⟩
      have inNew : later.number ∈ newNumbers (turnsFrom nOrderPos _ _ rest) :=
        List.mem_map_of_mem (List.mem_filter.mpr ⟨member, by simpa using unordered⟩)
      have le := le_newNumbers later.number inNew
      have room := le_max_right next ((⟨key, nOrderPos key, next, offsets⟩ : ReorderTurn).number + 1)
      omega

/-! ## A run of the loop -/

theorem Reordering.turn_eq_ok {written : OrderKey → Bool} {s t : Reordering} (run : s.turn written key = .ok t) :
    t.nOrderPos = Function.update s.nOrderPos key
        (⟨key, s.nOrderPos key, s.nOrderPosNext, s.nOrderPosOffsets⟩ : ReorderTurn).number ∧
      t.nOrderPosNext = max s.nOrderPosNext
        ((⟨key, s.nOrderPos key, s.nOrderPosNext, s.nOrderPosOffsets⟩ : ReorderTurn).number + 1) ∧
      t.nOrderPosOffsets =
        (if s.nOrderPos key = -1 then s.nOrderPosOffsets ++ [s.nOrderPosNext] else s.nOrderPosOffsets) := by
  unfold Reordering.turn at run
  split at run
  case isTrue unordered =>
    simp only [bind_eq_ok, addInt64_eq_ok, pure_eq_ok] at run
    obtain ⟨after, ⟨_, rfl⟩, _, _, rfl⟩ := run
    simp only [ReorderTurn.number, if_pos unordered, true_and, and_true]
    omega
  case isFalse ordered =>
    simp only [bind_eq_ok, addInt64_eq_ok, pure_eq_ok] at run
    obtain ⟨position, ⟨_, rfl⟩, after, ⟨_, rfl⟩, _, _, rfl⟩ := run
    simp only [ReorderTurn.number, if_neg ordered, moved, and_true]

/-- What the loop leaves behind, told from its turns. -/
structure Looped (s t : Reordering) (keys : List OrderKey) : Prop where
  others : ∀ key ∉ keys, t.nOrderPos key = s.nOrderPos key
  numbers : ∀ turn ∈ turnsFrom s.nOrderPos s.nOrderPosNext s.nOrderPosOffsets keys,
    t.nOrderPos turn.key = turn.number
  next : ∀ position, position < t.nOrderPosNext ↔ position < s.nOrderPosNext ∨
    ∃ turn ∈ turnsFrom s.nOrderPos s.nOrderPosNext s.nOrderPosOffsets keys, position ≤ turn.number

theorem looped {written : OrderKey → Bool} {s t : Reordering} (nodup : keys.Nodup)
    (run : keys.foldlM (Reordering.turn written) s = .ok t) : Looped s t keys := by
  induction keys generalizing s with
  | nil =>
      cases run
      exact ⟨fun _ _ => rfl, List.forall_mem_nil _, fun position => by simp [turnsFrom]⟩
  | cons key rest ih =>
      rw [List.foldlM_cons, bind_eq_ok] at run
      obtain ⟨middle, first, later⟩ := run
      obtain ⟨fresh, distinct⟩ := List.nodup_cons.mp nodup
      obtain ⟨position, counter, list⟩ := Reordering.turn_eq_ok first
      have rest_ := ih distinct later
      have turns : turnsFrom middle.nOrderPos middle.nOrderPosNext middle.nOrderPosOffsets rest =
          turnsFrom s.nOrderPos middle.nOrderPosNext middle.nOrderPosOffsets rest :=
        turnsFrom_congr fun other member => by
          have different : other ≠ key := fun same => fresh (by rwa [← same])
          rw [position, Function.update_of_ne different]
      rw [counter, list] at turns
      have numbers := rest_.numbers
      have next_ := rest_.next
      rw [counter, list, turns] at numbers next_
      constructor
      case others =>
        intro other outside
        have notLater : other ∉ rest := fun member => outside (List.mem_cons_of_mem key member)
        have different : other ≠ key := fun same => outside (by rw [same]; exact List.mem_cons_self)
        rw [rest_.others other notLater, position, Function.update_of_ne different]
      case numbers =>
        rw [turnsFrom]
        refine List.forall_mem_cons.mpr ⟨?_, numbers⟩
        rw [rest_.others key fresh, position, Function.update_self]
      case next =>
        intro bound
        rw [next_, turnsFrom, List.exists_mem_cons_iff, lt_max_iff, Int.lt_add_one_iff, or_assoc]

/-! ## The wallet afterwards -/

namespace OrderedWallet

/-- The entries that the loop visits, in the order of their times. -/
def visited (w : OrderedWallet) : List OrderKey := w.txByTime.map Prod.snd

def turns (w : OrderedWallet) : List ReorderTurn := turnsFrom w.nOrderPos 0 [] w.visited

theorem visited_perm (w : OrderedWallet) :
    w.visited.Perm (w.mapWallet.map (fun entry => .tx entry.1) ++ (w.listAccountCreditDebit "").map entryKey) := by
  have sorted := (foldl_insertByKey_perm Prod.fst (w.mapWallet.map (fun entry => ((entry.2.toNat : Int),
    OrderKey.tx entry.1)) ++ (w.listAccountCreditDebit "").map fun entry => (entry.2, entryKey entry)) []).map Prod.snd
  rw [List.nil_append, List.map_append, List.map_map, List.map_map] at sorted
  exact sorted

theorem listed_sublist (w : OrderedWallet) (strAccount : String) :
    List.Sublist (w.listAccountCreditDebit strAccount) w.acentries := by
  unfold listAccountCreditDebit
  split
  · exact List.Sublist.refl _
  · exact List.filter_sublist

theorem visited_nodup (w : OrderedWallet) : w.visited.Nodup := by
  have entries : ((w.listAccountCreditDebit "").map entryKey).Nodup := by
    have keys := w.acentries_nodup.sublist ((w.listed_sublist "").map Prod.fst)
    have injective : Function.Injective fun key : String × UInt64 => OrderKey.acentry key.1 key.2 := by
      intro left right same
      obtain ⟨account, number⟩ := OrderKey.acentry.inj same
      exact Prod.ext account number
    have mapped := keys.map injective
    rwa [List.map_map] at mapped
  have txs : (w.mapWallet.map fun entry => OrderKey.tx entry.1).Nodup := by
    have injective : Function.Injective OrderKey.tx := fun left right same => OrderKey.tx.inj same
    have mapped := w.mapWallet_nodup.map injective
    rwa [List.map_map] at mapped
  rw [w.visited_perm.nodup_iff, List.nodup_append']
  refine ⟨txs, entries, fun key isTx isEntry => ?_⟩
  obtain ⟨tx, _, rfl⟩ := List.mem_map.mp isTx
  obtain ⟨entry, _, same⟩ := List.mem_map.mp isEntry
  cases same

theorem visited_subset (w : OrderedWallet) : w.visited ⊆ w.keys := by
  intro key member
  rcases List.mem_append.mp (w.visited_perm.subset member) with tx | entry
  · exact List.mem_append_left _ tx
  · exact List.mem_append_right _ (List.map_subset _ (w.listed_sublist "").subset entry)

/-- The assigned positions are pairwise distinct. -/
abbrev Distinct (w : OrderedWallet) : Prop :=
  ∀ key ∈ w.keys, ∀ other ∈ w.keys, w.nOrderPos key ≠ -1 → w.nOrderPos key = w.nOrderPos other → key = other

/-- What the upgrade promises. -/
structure Reordered (w after : OrderedWallet) : Prop where
  nonneg : ∀ key ∈ w.keys, 0 ≤ after.nOrderPos key
  distinct : ∀ key ∈ w.keys, ∀ other ∈ w.keys, after.nOrderPos key = after.nOrderPos other → key = other
  order : ∀ key ∈ w.keys, ∀ other ∈ w.keys, w.nOrderPos key ≠ -1 → w.nOrderPos other ≠ -1 →
    w.nOrderPos key < w.nOrderPos other → after.nOrderPos key < after.nOrderPos other
  next : ∀ key ∈ w.keys, after.nOrderPos key < after.nOrderPosNext

/-- When the loop does what it should. The entries it does not visit are those of the other accounts. -/
structure Clear (w : OrderedWallet) : Prop where
  placed : ∀ key ∈ w.keys, w.nOrderPos key ≠ -1 → 0 ≤ w.nOrderPos key
  visits : ∀ key ∈ w.keys, w.nOrderPos key = -1 → key ∈ w.visited
  /-- No position is moved to an offset. -/
  apart : ∀ turn ∈ w.turns, turn.nOrderPos ≠ -1 → moved turn.nOrderPosOffsets turn.nOrderPos ∉ turn.nOrderPosOffsets
  /-- The counter does not meet a position that stays. -/
  unmet : ∀ key ∈ w.keys, key ∉ w.visited → ∀ turn ∈ w.turns, turn.nOrderPos = -1 →
    turn.nOrderPosNext ≠ w.nOrderPos key
  /-- No position is moved past one that stays. -/
  under : ∀ key ∈ w.keys, key ∉ w.visited → ∀ turn ∈ w.turns, turn.nOrderPos ≠ -1 →
    turn.nOrderPos < w.nOrderPos key → moved turn.nOrderPosOffsets turn.nOrderPos < w.nOrderPos key
  below : ∀ key ∈ w.keys, key ∉ w.visited → ∃ turn ∈ w.turns, w.nOrderPos key ≤ turn.number

variable {w after : OrderedWallet} {written : OrderKey → Bool}

/-- What is known of the positions after a successful run. -/
structure Ran (w after : OrderedWallet) : Prop where
  others : ∀ key ∉ w.visited, after.nOrderPos key = w.nOrderPos key
  numbers : ∀ turn ∈ w.turns, after.nOrderPos turn.key = turn.number
  next : ∀ position, 0 ≤ position → (position < after.nOrderPosNext ↔ ∃ turn ∈ w.turns, position ≤ turn.number)

theorem ran (run : w.reorderTransactions written = .ok after) : Ran w after := by
  obtain ⟨s, loop, same⟩ := bind_eq_ok.mp run
  cases same
  have facts := looped w.visited_nodup loop
  refine ⟨facts.others, facts.numbers, fun position nonneg => ?_⟩
  have notBefore : ¬ position < (0 : Int) := Int.not_lt.mpr nonneg
  exact (facts.next position).trans (or_iff_right notBefore)

theorem map_key_turns (w : OrderedWallet) : w.turns.map ReorderTurn.key = w.visited := map_key_turnsFrom

theorem turn_of_visited {key : OrderKey} (member : key ∈ w.visited) : ∃ turn ∈ w.turns, turn.key = key := by
  rw [← map_key_turns] at member
  exact List.mem_map.mp member

theorem visited_of_turn {turn : ReorderTurn} (member : turn ∈ w.turns) : turn.key ∈ w.visited := by
  rw [← map_key_turns]
  exact List.mem_map_of_mem member

theorem nOrderPos_of_mem_turns {turn : ReorderTurn} (member : turn ∈ w.turns) : turn.nOrderPos = w.nOrderPos turn.key :=
  nOrderPos_of_mem_turnsFrom member

theorem Ran.moved (ran : Ran w after) {key : OrderKey} (member : key ∈ w.visited) (ordered : w.nOrderPos key ≠ -1) :
    after.nOrderPos key = moved (newNumbers w.turns) (w.nOrderPos key) := by
  obtain ⟨turn, inTurns, rfl⟩ := turn_of_visited member
  have position := nOrderPos_of_mem_turnsFrom inTurns
  have value := (number_eq_moved turn inTurns (by rwa [position])).1
  rw [List.nil_append, position] at value
  rw [ran.numbers turn inTurns, value]
  rfl

theorem Ran.new (ran : Ran w after) {key : OrderKey} (member : key ∈ w.visited) (unordered : w.nOrderPos key = -1) :
    after.nOrderPos key ∈ newNumbers w.turns := by
  obtain ⟨turn, inTurns, rfl⟩ := turn_of_visited member
  have position := nOrderPos_of_mem_turnsFrom inTurns
  rw [ran.numbers turn inTurns]
  exact List.mem_map_of_mem (List.mem_filter.mpr ⟨inTurns, by simpa [position] using unordered⟩)

theorem newNumbers_nonneg : ∀ number ∈ newNumbers w.turns, 0 ≤ number := le_newNumbers

theorem Ran.new_injective (ran : Ran w after) {key other : OrderKey} (member : key ∈ w.visited)
    (member' : other ∈ w.visited) (unordered : w.nOrderPos key = -1) (unordered' : w.nOrderPos other = -1)
    (same : after.nOrderPos key = after.nOrderPos other) : key = other := by
  obtain ⟨turn, inTurns, rfl⟩ := turn_of_visited member
  obtain ⟨turn', inTurns', rfl⟩ := turn_of_visited member'
  rw [ran.numbers turn inTurns, ran.numbers turn' inTurns'] at same
  rw [← nOrderPos_of_mem_turnsFrom inTurns] at unordered
  rw [← nOrderPos_of_mem_turnsFrom inTurns'] at unordered'
  have growing : w.turns.Pairwise fun earlier later => later.nOrderPos = -1 → earlier.number < later.number :=
    newNumbers_pairwise
  have different := growing.imp fun {earlier later} grows (_ : earlier.nOrderPos = -1) (lacks : later.nOrderPos = -1) =>
    (grows lacks).ne
  have symmetric : Std.Symm fun earlier later : ReorderTurn =>
      earlier.nOrderPos = -1 → later.nOrderPos = -1 → earlier.number ≠ later.number :=
    ⟨fun _ _ apart lacks lacks' => (apart lacks' lacks).symm⟩
  by_contra apart
  have turnsApart : turn ≠ turn' := fun equal => apart (by rw [equal])
  exact different.forall inTurns inTurns' turnsApart unordered unordered' same

/-- A moved position is a new number exactly where its turn has met that number. -/
theorem Ran.mem_newNumbers_iff (ran : Ran w after) {turn : ReorderTurn} (inTurns : turn ∈ w.turns)
    (ordered : turn.nOrderPos ≠ -1) :
    after.nOrderPos turn.key ∈ newNumbers w.turns ↔
      BitCrystal.moved turn.nOrderPosOffsets turn.nOrderPos ∈ turn.nOrderPosOffsets := by
  rw [ran.numbers turn inTurns, ← ReorderTurn.number_of_ordered ordered]
  exact (number_eq_moved turn inTurns ordered).2

theorem Ran.nonneg_iff (ran : Ran w after) {key : OrderKey} (ordered : w.nOrderPos key ≠ -1) :
    0 ≤ after.nOrderPos key ↔ 0 ≤ w.nOrderPos key := by
  by_cases visits : key ∈ w.visited
  · rw [ran.moved visits ordered]
    constructor
    · intro nonneg
      by_contra negative
      have unmoved : BitCrystal.moved ([] ++ newNumbers w.turns) (w.nOrderPos key) =
          BitCrystal.moved [] (w.nOrderPos key) :=
        moved_append fun number member => (not_le.mp negative).trans_le (newNumbers_nonneg number member)
      rw [List.nil_append, moved_nil] at unmoved
      exact negative (nonneg.trans_eq unmoved)
    · exact fun nonneg => nonneg.trans (le_moved _ _)
  · rw [ran.others key visits]

theorem Ran.clear (ran : Ran w after) (reordered : Reordered w after) : Clear w := by
  have ordered_of_others {key : OrderKey} (member : key ∈ w.keys) (hidden : key ∉ w.visited) :
      w.nOrderPos key ≠ -1 := by
    intro unordered
    have nonneg := reordered.nonneg key member
    rw [ran.others key hidden, unordered] at nonneg
    exact absurd nonneg (by decide)
  constructor
  case placed =>
    intro key member ordered
    exact (ran.nonneg_iff ordered).mp (reordered.nonneg key member)
  case visits =>
    intro key member unordered
    by_contra hidden
    exact ordered_of_others member hidden unordered
  case apart =>
    intro turn inTurns ordered collides
    have inNew := (ran.mem_newNumbers_iff inTurns ordered).mpr collides
    obtain ⟨new, filtered, same⟩ := List.mem_map.mp inNew
    obtain ⟨inTurns', unordered⟩ := List.mem_filter.mp filtered
    rw [← ran.numbers new inTurns'] at same
    have equal := reordered.distinct new.key (w.visited_subset (visited_of_turn inTurns')) turn.key
      (w.visited_subset (visited_of_turn inTurns)) same
    rw [nOrderPos_of_mem_turns inTurns, ← equal, ← nOrderPos_of_mem_turns inTurns'] at ordered
    exact ordered (by simpa using unordered)
  case unmet =>
    intro key member hidden turn inTurns unordered same
    have visits := visited_of_turn inTurns
    rw [← ReorderTurn.number_of_unordered unordered, ← ran.numbers turn inTurns, ← ran.others key hidden] at same
    have equal := reordered.distinct turn.key (w.visited_subset visits) key member same
    exact hidden (by rwa [← equal])
  case under =>
    intro key member hidden turn inTurns ordered lt
    have visits := visited_of_turn inTurns
    rw [← ReorderTurn.number_of_ordered ordered, ← ran.numbers turn inTurns, ← ran.others key hidden]
    rw [nOrderPos_of_mem_turns inTurns] at ordered lt
    exact reordered.order turn.key (w.visited_subset visits) key member ordered (ordered_of_others member hidden) lt
  case below =>
    intro key member hidden
    have nonneg := reordered.nonneg key member
    have lt := reordered.next key member
    rw [ran.others key hidden] at nonneg lt
    exact (ran.next _ nonneg).mp lt

theorem Clear.ordered_of_hidden (clear : Clear w) {key : OrderKey} (member : key ∈ w.keys) (hidden : key ∉ w.visited) :
    w.nOrderPos key ≠ -1 :=
  fun unordered => hidden (clear.visits key member unordered)

theorem Clear.apart_new (clear : Clear w) (ran : Ran w after) {key other : OrderKey} (member : key ∈ w.visited)
    (member' : other ∈ w.visited) (ordered : w.nOrderPos key ≠ -1) (unordered : w.nOrderPos other = -1) :
    after.nOrderPos key ≠ after.nOrderPos other := by
  intro same
  obtain ⟨turn, inTurns, rfl⟩ := turn_of_visited member
  rw [← nOrderPos_of_mem_turns inTurns] at ordered
  have inNew := ran.new member' unordered
  rw [← same, ran.mem_newNumbers_iff inTurns ordered] at inNew
  exact clear.apart turn inTurns ordered inNew

theorem Clear.apart_hidden (clear : Clear w) (ran : Ran w after) (distinct : Distinct w) {key other : OrderKey}
    (member : key ∈ w.visited) (listed : other ∈ w.keys) (hidden : other ∉ w.visited) :
    after.nOrderPos key ≠ after.nOrderPos other := by
  obtain ⟨turn, inTurns, rfl⟩ := turn_of_visited member
  rw [ran.numbers turn inTurns, ran.others other hidden]
  by_cases unordered : turn.nOrderPos = -1
  · rw [ReorderTurn.number_of_unordered unordered]
    exact clear.unmet other listed hidden turn inTurns unordered
  · rw [ReorderTurn.number_of_ordered unordered]
    have position := nOrderPos_of_mem_turns inTurns
    have different : turn.nOrderPos ≠ w.nOrderPos other := by
      intro same
      rw [position] at same unordered
      have equal := distinct turn.key (w.visited_subset member) other listed unordered same
      exact hidden (by rwa [← equal])
    rcases different.lt_or_gt with lt | gt
    · exact (clear.under other listed hidden turn inTurns unordered lt).ne
    · exact (gt.trans_le (le_moved _ _)).ne'

theorem Clear.distinct (clear : Clear w) (ran : Ran w after) (distinct : Distinct w) {key other : OrderKey}
    (listed : key ∈ w.keys) (listed' : other ∈ w.keys) (same : after.nOrderPos key = after.nOrderPos other) : key = other := by
  by_cases member : key ∈ w.visited <;> by_cases member' : other ∈ w.visited
  · by_cases unordered : w.nOrderPos key = -1 <;> by_cases unordered' : w.nOrderPos other = -1
    · exact ran.new_injective member member' unordered unordered' same
    · exact absurd same.symm (clear.apart_new ran member' member unordered' unordered)
    · exact absurd same (clear.apart_new ran member member' unordered unordered')
    · rw [ran.moved member unordered, ran.moved member' unordered'] at same
      have injective : Function.Injective (BitCrystal.moved (newNumbers w.turns)) :=
        StrictMono.injective fun _ _ => moved_strictMono _
      exact distinct key listed other listed' unordered (injective same)
  · exact absurd same (clear.apart_hidden ran distinct member listed' member')
  · exact absurd same.symm (clear.apart_hidden ran distinct member' listed member)
  · rw [ran.others key member, ran.others other member'] at same
    exact distinct key listed other listed' (clear.ordered_of_hidden listed member) same

theorem Clear.order (clear : Clear w) (ran : Ran w after) {key other : OrderKey} (listed' : other ∈ w.keys)
    (ordered : w.nOrderPos key ≠ -1) (ordered' : w.nOrderPos other ≠ -1) (lt : w.nOrderPos key < w.nOrderPos other) :
    after.nOrderPos key < after.nOrderPos other := by
  by_cases member : key ∈ w.visited <;> by_cases member' : other ∈ w.visited
  · rw [ran.moved member ordered, ran.moved member' ordered']
    exact moved_strictMono _ lt
  · obtain ⟨turn, inTurns, rfl⟩ := turn_of_visited member
    rw [← nOrderPos_of_mem_turns inTurns] at ordered lt
    rw [ran.numbers turn inTurns, ran.others other member', ReorderTurn.number_of_ordered ordered]
    exact clear.under other listed' member' turn inTurns ordered lt
  · rw [ran.others key member, ran.moved member' ordered']
    exact lt.trans_le (le_moved _ _)
  · rwa [ran.others key member, ran.others other member']

theorem Clear.reordered (clear : Clear w) (ran : Ran w after) (distinct : Distinct w) : Reordered w after := by
  have nonneg (key : OrderKey) (member : key ∈ w.keys) : 0 ≤ after.nOrderPos key := by
    by_cases unordered : w.nOrderPos key = -1
    · exact newNumbers_nonneg _ (ran.new (clear.visits key member unordered) unordered)
    · exact (ran.nonneg_iff unordered).mpr (clear.placed key member unordered)
  constructor
  case nonneg => exact nonneg
  case distinct => exact fun key member other member' => clear.distinct ran distinct member member'
  case order => exact fun key _ other member' => clear.order ran member'
  case next =>
    intro key member
    rw [ran.next _ (nonneg key member)]
    by_cases visits : key ∈ w.visited
    · obtain ⟨turn, inTurns, rfl⟩ := turn_of_visited visits
      exact ⟨turn, inTurns, (ran.numbers turn inTurns).le⟩
    · rw [ran.others key visits]
      exact clear.below key member visits

/-- A successful upgrade puts the wallet in order exactly where the wallet is clear. -/
theorem reordered_iff (distinct : Distinct w) (run : w.reorderTransactions written = .ok after) :
    Reordered w after ↔ Clear w :=
  ⟨(ran run).clear, fun clear => clear.reordered (ran run) distinct⟩

/-! ## Samples -/

/-- Transactions and entries with the positions of the list, found by their hashes and numbers. -/
def placed (positions : List Int) (mapWallet : List (UInt256 × UInt32)) (acentries : List ((String × UInt64) × Int))
    (txs : (mapWallet.map Prod.fst).Nodup) (entries : (acentries.map Prod.fst).Nodup) : OrderedWallet where
  mapWallet
  acentries
  nOrderPos
    | .tx hash => positions.getD hash.toNat (-1)
    | .acentry _ nEntryNo => positions.getD nEntryNo.toNat (-1)
  nOrderPosNext := 0
  mapWallet_nodup := txs
  acentries_nodup := entries

/-- An ordered transaction, a new one and an ordered entry of another account in between -/
def orderly : OrderedWallet := placed [0, 2, -1, 1] [(0, 1), (1, 2), (2, 3)] [(("savings", 3), 2)] (by decide) (by decide)

theorem reordered_orderly : ∃ after, orderly.reorderTransactions (fun _ => true) = .ok after ∧ Reordered orderly after := by
  have clear : Clear orderly := ⟨by decide, by decide, by decide, by decide, by decide, by decide⟩
  obtain ⟨after, run⟩ : ∃ after, orderly.reorderTransactions (fun _ => true) = .ok after := ⟨_, rfl⟩
  exact ⟨after, run, (reordered_iff (by decide) run).mpr clear⟩

def interleaved : OrderedWallet := placed [-1, 0, -1, 1] [(0, 1), (1, 2), (2, 3), (3, 4)] [] (by decide) (by decide)

/-- The second new transaction gets the number to which the last one is moved. -/
theorem interleaved_collide :
    ¬ ∀ w : OrderedWallet, Distinct w → ∀ after, w.reorderTransactions (fun _ => true) = .ok after → Reordered w after := by
  intro all
  have reordered := all interleaved (by decide) _ rfl
  have same := reordered.distinct (.tx 2) (by decide) (.tx 3) (by decide) (by decide)
  exact absurd same (by decide)

/-- An entry of another account without a position -/
def unlisted : OrderedWallet := placed [-1] [] [(("savings", 0), 1)] (by decide) (by decide)

example : ∃ after, unlisted.reorderTransactions (fun _ => true) = .ok after ∧
    after.nOrderPos (.acentry "savings" 0) = -1 :=
  ⟨_, rfl, rfl⟩

end OrderedWallet

end BitCrystal
