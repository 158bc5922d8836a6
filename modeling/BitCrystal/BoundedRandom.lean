import BitCrystal.Data.Rejection
import BitCrystal.DataSecurity

namespace BitCrystal

open Data

/-! # The bounded random numbers of random.cpp -/

/-- The generator of the C library. -/
structure RandLibrary (σ : Type) where
  /-- `srand` sets the state, whatever it was before. -/
  srand : (seed : UInt32) → σ
  rand : σ → Nat × σ
  RAND_MAX : Nat
  minimum : 32767 ≤ RAND_MAX
  isInt : RAND_MAX < 2 ^ 31
  inRange (s : σ) : (rand s).1 ≤ RAND_MAX
  /-- Every value of the range comes up again and again. -/
  everyValue (s : σ) (value : Nat) : value ≤ RAND_MAX → ∃ n, (rand (drawn rand n s)).1 = value

variable {σ : Type}

namespace myrand

/-- `now` is `time(NULL)` -/
def srand (lib : RandLibrary σ) (now : UInt32) (seed : Int) : σ :=
  if seed = 0 then lib.srand 1420297560
  else if seed < 0 then lib.srand now
  else lib.srand (UInt32.ofInt seed)

/-- `number = rand()%max`, which an `int` holds. -/
def draw (lib : RandLibrary σ) (max : UInt32) (s : σ) : Nat × σ :=
  let (value, s) := lib.rand s
  (value % max.toNat, s)

/-- `fuel` bounds the turns of the loop. -/
def rand (lib : RandLibrary σ) (fuel : Nat) (min max : UInt32) (s : σ) : Except Failure (Int × σ) := do
  if max ≤ min then return (-1, s)
  let (number, s) ← expect (rejectLoop (draw lib max) (min.toNat < ·) fuel s) .endless
  return (number, s)

end myrand

/-- The loop of get_encoded_table_my. -/
def encodedTableLoop (lib : RandLibrary σ) (fuel : Nat) : Nat → σ → Except Failure (Bytes × σ)
  | 0, s => .ok ([], s)
  | count + 1, s => do
      let (number, s) ← myrand.rand lib fuel 1 127 s
      let (encodedTable, s) ← encodedTableLoop lib fuel count s
      return (UInt8.ofInt number :: encodedTable, s)

/-- The call of `srand` replaces the state in which the generator is found. -/
def getEncodedTableMy (lib : RandLibrary σ) (fuel : Nat) (now inLen : UInt32) (_ : σ) : Except Failure (Bytes × σ) := do
  intLoop inLen.toNat
  encodedTableLoop lib fuel inLen.toNat (myrand.srand lib now 0)

/-! ## The loop of the bounded numbers -/

namespace myrand

variable {lib : RandLibrary σ} {fuel turns : Nat} {min max : UInt32} {s s' : σ} {v : Int}

theorem drawn_draw (n : Nat) : drawn (draw lib max) n s = drawn lib.rand n s := by
  induction n generalizing s with
  | zero => rfl
  | succ n ih =>
      rw [drawn, drawn, ih]
      rfl

theorem rand_eq (below : min < max) : rand lib fuel min max s =
    (expect (rejectLoop (draw lib max) (min.toNat < ·) fuel s) .endless).map fun (number, s) => (↑number, s) := by
  have order : ¬max ≤ min := UInt32.not_le.mpr below
  rw [rand, if_neg order]
  cases rejectLoop (draw lib max) (min.toNat < ·) fuel s <;> rfl

theorem rand_bounds (below : min < max) (ran : rand lib fuel min max s = .ok (v, s')) :
    (min.toNat : Int) < v ∧ v < max.toNat := by
  rw [rand_eq below] at ran
  obtain ⟨⟨number, after⟩, loop, same⟩ := ok_of_map_eq_ok ran
  obtain ⟨n, draw, accepted⟩ := rejectLoop_draw (expect_eq_ok.mp loop)
  have order : min.toNat < max.toNat := UInt32.lt_iff_toNat_lt.mp below
  have number_lt : number < max.toNat := by
    have number_eq : (lib.rand (drawn (myrand.draw lib max) n s)).1 % max.toNat = number := congrArg Prod.fst draw
    exact number_eq ▸ Nat.mod_lt _ (Nat.zero_lt_of_lt order)
  have above : min.toNat < number := by simpa using accepted
  obtain rfl : (number : Int) = v := congrArg Prod.fst same
  omega

theorem rand_first {n : Nat} (below : min < max)
    (rejects : ∀ m < n, ¬min.toNat < (lib.rand (drawn lib.rand m s)).1 % max.toNat)
    (accepts : min.toNat < (lib.rand (drawn lib.rand n s)).1 % max.toNat) (enough : n < fuel) :
    rand lib fuel min max s =
      .ok (((lib.rand (drawn lib.rand n s)).1 % max.toNat : Nat), drawn lib.rand (n + 1) s) := by
  have loop : rejectLoop (draw lib max) (min.toNat < ·) fuel s = some (draw lib max (drawn (draw lib max) n s)) :=
    rejectLoop_first (fun m before => by simpa [drawn_draw, draw] using rejects m before)
      (by simpa [drawn_draw, draw] using accepts) enough
  rw [rand_eq below, loop, drawn_draw, drawn_succ]
  rfl

/-- No number lies strictly between two that follow each other, and none above what rand() gives. -/
theorem rand_endless (lib : RandLibrary σ) (below : min < max) (empty : max.toNat ≤ min.toNat + 1 ∨ lib.RAND_MAX ≤ min.toNat) :
    rand lib fuel min max s = .error .endless := by
  have rejects (s : σ) : decide (min.toNat < (draw lib max s).1) = false := by
    have order : min.toNat < max.toNat := UInt32.lt_iff_toNat_lt.mp below
    have range := lib.inRange s
    have remainder := Nat.mod_lt (lib.rand s).1 (Nat.zero_lt_of_lt order)
    have least := Nat.mod_le (lib.rand s).1 max.toNat
    rw [decide_eq_false_iff_not]
    change ¬min.toNat < (lib.rand s).1 % max.toNat
    omega
  rw [rand_eq below, rejectLoop_eq_none rejects]
  rfl

theorem rand_ends (lib : RandLibrary σ) (room : min.toNat + 1 < max.toNat) (small : min.toNat < lib.RAND_MAX) (s : σ) :
    ∃ turns v s', ∀ fuel, turns ≤ fuel → rand lib fuel min max s = .ok (v, s') := by
  have below : min < max := UInt32.lt_iff_toNat_lt.mpr (by omega)
  obtain ⟨n, found⟩ := lib.everyValue s (min.toNat + 1) small
  have accepted : ∃ n, min.toNat < (lib.rand (drawn lib.rand n s)).1 % max.toNat := by
    refine ⟨n, ?_⟩
    rw [found, Nat.mod_eq_of_lt room]
    exact Nat.lt_succ_self _
  exact ⟨Nat.find accepted + 1, _, _, fun fuel enough =>
    rand_first below (fun m before => Nat.find_min accepted before) (Nat.find_spec accepted) enough⟩

end myrand

/-! ## The table -/

variable {lib : RandLibrary σ}

/-- The calls of rand() after the seed of the table. -/
def RandLibrary.seeded (lib : RandLibrary σ) : SeededRand where
  rand called := (lib.rand (drawn lib.rand called (lib.srand 1420297560))).1
  supplies called := by
    obtain ⟨n, found⟩ := lib.everyValue (drawn lib.rand called (lib.srand 1420297560)) 2 (Nat.le_trans (by decide) lib.minimum)
    refine ⟨called + n, Nat.le_add_right called n, ?_⟩
    dsimp only
    rw [drawn_add, found]
    decide

def RandLibrary.seededState (lib : RandLibrary σ) (called : Nat) : σ := drawn lib.rand called (lib.srand 1420297560)

theorem drawn_seededState (called n : Nat) : drawn lib.rand n (lib.seededState called) = lib.seededState (called + n) :=
  (drawn_add called n).symm

theorem rand_seeded (lib : RandLibrary σ) (called : Nat) {fuel : Nat} (enough : lib.seeded.accepted called < fuel) :
    myrand.rand lib fuel 1 127 (lib.seededState called) =
      .ok ((lib.seeded.rand (lib.seeded.accepted called) % 127 : Nat), lib.seededState (lib.seeded.accepted called + 1)) := by
  obtain ⟨later, accepts⟩ := Nat.find_spec (lib.seeded.supplies called)
  change called ≤ lib.seeded.accepted called at later
  obtain ⟨n, split⟩ := Nat.exists_eq_add_of_le later
  have rejects : ∀ m < n, ¬1 < (lib.rand (drawn lib.rand m (lib.seededState called))).1 % 127 := by
    intro m before accepted
    rw [drawn_seededState] at accepted
    exact Nat.find_min (lib.seeded.supplies called) (m := called + m)
      (by change called + m < lib.seeded.accepted called; omega) ⟨Nat.le_add_right called m, accepted⟩
  have bounds : (1 : UInt32) < 127 := by decide
  have first := myrand.rand_first bounds rejects (by rw [drawn_seededState, ← split]; exact accepts) (by omega : n < fuel)
  rw [first, drawn_seededState, drawn_seededState, ← Nat.add_assoc, ← split]
  rfl

theorem ofInt_natCast (n : Nat) : UInt8.ofInt n = UInt8.ofNat n := by
  have remainder : ((n : Int) % 2 ^ 8).toNat = n % 2 ^ 8 := by omega
  rw [UInt8.ofInt, remainder]
  exact UInt8.ofNat_mod_size

/-- The loop of the table, from any number of calls on, gives the table of the seeded calls once the
inner loops may turn often enough. -/
theorem encodedTableLoop_eq (lib : RandLibrary σ) (count called : Nat) : ∃ turns s', ∀ fuel, turns ≤ fuel →
    encodedTableLoop lib fuel count (lib.seededState called) = .ok (lib.seeded.tableFrom count called, s') := by
  induction count generalizing called with
  | zero => exact ⟨0, _, fun _ _ => rfl⟩
  | succ count ih =>
      obtain ⟨turns, s', others⟩ := ih (lib.seeded.accepted called + 1)
      refine ⟨max turns (lib.seeded.accepted called + 1), s', fun fuel enough => ?_⟩
      have first := rand_seeded lib called (by omega : _ < fuel)
      rw [encodedTableLoop, first, ok_bind]
      dsimp only
      rw [others fuel (by omega), ok_bind, SeededRand.tableFrom, ofInt_natCast]
      rfl

theorem length_tableFrom {g : SeededRand} (count called : Nat) : (g.tableFrom count called).length = count := by
  induction count generalizing called with
  | zero => rfl
  | succ count ih => rw [SeededRand.tableFrom, List.length_cons, ih]

/-- The table is the one of the seeded calls, whatever state the generator is in before. -/
theorem getEncodedTableMy_eq (lib : RandLibrary σ) (now inLen : UInt32) : ∃ turns s', ∀ fuel s, turns ≤ fuel →
    getEncodedTableMy lib fuel now inLen s = (lib.seeded.encodedTable inLen.toNat).map fun table => (table, s') := by
  obtain ⟨turns, s', loop⟩ := encodedTableLoop_eq lib inLen.toNat 0
  refine ⟨turns, s', fun fuel s enough => ?_⟩
  have seed : myrand.srand lib now 0 = lib.seededState 0 := rfl
  rw [getEncodedTableMy, SeededRand.encodedTable, seed, loop fuel enough]
  cases intLoop inLen.toNat <;> rfl

/-- The bounded numbers end between their bounds exactly when a number lies between these that rand()
gives, and the table is complete, and always the same, exactly when an `int` counts it. -/
theorem myrand_iff (lib : RandLibrary σ) :
    (∀ (min max : UInt32) (s : σ), min < max →
      ((∃ (turns : Nat) (v : Int) (s' : σ), (min.toNat < v ∧ v < max.toNat) ∧
          ∀ fuel, turns ≤ fuel → myrand.rand lib fuel min max s = .ok (v, s')) ↔
        min.toNat + 1 < max.toNat ∧ min.toNat < lib.RAND_MAX)) ∧
    ∀ now inLen : UInt32, (∃ table : Bytes, table.length = inLen.toNat ∧ ∃ turns s', ∀ fuel s, turns ≤ fuel →
        getEncodedTableMy lib fuel now inLen s = .ok (table, s')) ↔
      inLen.toNat < 2 ^ 31 := by
  constructor
  · intro min max s below
    constructor
    · rintro ⟨turns, v, s', -, ends⟩
      by_contra empty
      exact nomatch (ends turns le_rfl).symm.trans (myrand.rand_endless lib below (by omega))
    · rintro ⟨room, small⟩
      obtain ⟨turns, v, s', ends⟩ := myrand.rand_ends lib room small s
      exact ⟨turns, v, s', myrand.rand_bounds below (ends turns le_rfl), ends⟩
  · intro now inLen
    obtain ⟨turns, s', same⟩ := getEncodedTableMy_eq lib now inLen
    constructor
    · rintro ⟨table, -, turns', after, ran⟩
      have both := (same (max turns turns') (lib.seededState 0) (le_max_left _ _)).symm.trans
        (ran (max turns turns') (lib.seededState 0) (le_max_right _ _))
      obtain ⟨_, complete, -⟩ := ok_of_map_eq_ok both
      exact (SeededRand.encodedTable_eq_ok.mp complete).1
    · intro short
      refine ⟨lib.seeded.tableFrom inLen.toNat 0, length_tableFrom _ _, turns, s', fun fuel s enough => ?_⟩
      rw [same fuel s enough, SeededRand.encodedTable_eq_ok.mpr ⟨short, rfl⟩]
      rfl

/-- The values of the GNU C library after the seed of the table, and after them all values in turn;
the state is the number of calls. -/
def gnuCall (called : Nat) : Nat × Nat :=
  (if called < SeededRand.gnuValues.length then SeededRand.gnuValues.getD called 0
    else (called - SeededRand.gnuValues.length) % 2 ^ 31, called + 1)

theorem drawn_gnuCall (n called : Nat) : drawn gnuCall n called = called + n := by
  induction n generalizing called with
  | zero => rfl
  | succ n ih =>
      rw [drawn, ih]
      exact Nat.succ_add called n

def gnuLibrary : RandLibrary Nat where
  srand seed := if seed = 1420297560 then 0 else SeededRand.gnuValues.length
  rand := gnuCall
  RAND_MAX := 2147483647
  minimum := by decide
  isInt := by decide
  inRange called := by
    have bounded : ∀ value ∈ SeededRand.gnuValues, value ≤ 2147483647 := by decide
    unfold gnuCall
    split
    · rename_i known
      rw [List.getD_eq_getElem _ _ known]
      exact bounded _ (List.getElem_mem known)
    · dsimp only
      omega
  everyValue called value small := by
    refine ⟨SeededRand.gnuValues.length + value + (2 ^ 31 - 1) * called, ?_⟩
    rw [drawn_gnuCall, gnuCall, if_neg (by omega)]
    dsimp only
    omega

theorem myrand_iff_gnu :
    ∃ (turns : Nat) (v : Int) (s' : Nat), ((1 : UInt32).toNat < v ∧ v < (127 : UInt32).toNat) ∧
      ∀ fuel, turns ≤ fuel → myrand.rand gnuLibrary fuel 1 127 0 = .ok (v, s') :=
  ((myrand_iff gnuLibrary).1 1 127 0 (by decide)).mpr (by decide)

/-- Between 1 and 2 there is nothing to wait for. -/
theorem myrand_endless : ¬∃ fuel v s', myrand.rand gnuLibrary fuel 1 2 0 = .ok (v, s') := by
  rintro ⟨fuel, v, s', ran⟩
  exact nomatch ran.symm.trans (myrand.rand_endless gnuLibrary (by decide) (.inl (by decide)))

end BitCrystal
