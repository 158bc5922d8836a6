import Mathlib.Data.List.Sort
import Mathlib.Order.Basic

namespace BitCrystal.Data

/-! Order statistics of a list, by counting, and medians of integers. -/

section Ranks

variable {α : Type} [LinearOrder α] {values sorted : List α} {rank : Nat} {value other : α}

/-- `value` stands at `rank`, counted from zero, once the values are put in order. -/
def HasRank (values : List α) (rank : Nat) (value : α) : Prop :=
  values.countP (· < value) ≤ rank ∧ rank < values.countP (· ≤ value)

instance : Decidable (HasRank values rank value) := inferInstanceAs (Decidable (_ ∧ _))

theorem HasRank.lt_iff (ranked : HasRank values rank value) : other < value ↔ values.countP (· ≤ other) ≤ rank := by
  constructor
  · intro below
    have count : values.countP (· ≤ other) ≤ values.countP (· < value) :=
      List.countP_mono_left fun v _ le => by simpa using lt_of_le_of_lt (by simpa using le) below
    exact count.trans ranked.1
  · intro few
    by_contra above
    have count : values.countP (· ≤ value) ≤ values.countP (· ≤ other) :=
      List.countP_mono_left fun v _ le => by simpa using le_trans (by simpa using le) (not_lt.mp above)
    exact absurd (ranked.2.trans_le count) (not_lt.mpr few)

theorem HasRank.gt_iff (ranked : HasRank values rank value) : value < other ↔ rank < values.countP (· < other) := by
  constructor
  · intro below
    have count : values.countP (· ≤ value) ≤ values.countP (· < other) :=
      List.countP_mono_left fun v _ le => by simpa using lt_of_le_of_lt (by simpa using le) below
    exact ranked.2.trans_le count
  · intro many
    by_contra above
    have count : values.countP (· < other) ≤ values.countP (· < value) :=
      List.countP_mono_left fun v _ lt => by simpa using lt_of_lt_of_le (by simpa using lt) (not_lt.mp above)
    exact absurd (many.trans_le count) (not_lt.mpr ranked.1)

theorem HasRank.unique (first : HasRank values rank value) (second : HasRank values rank other) : value = other :=
  le_antisymm (not_lt.mp fun below => absurd second.2 (not_lt.mpr (first.lt_iff.mp below)))
    (not_lt.mp fun below => absurd first.2 (not_lt.mpr (second.lt_iff.mp below)))

theorem HasRank.lt_length (ranked : HasRank values rank value) : rank < values.length :=
  ranked.2.trans_le List.countP_le_length

theorem HasRank.mem (ranked : HasRank values rank value) : value ∈ values := by
  by_contra absent
  have same : values.countP (· ≤ value) = values.countP (· < value) :=
    List.countP_congr fun v member => by
      have ne : v ≠ value := fun eq => absent (eq ▸ member)
      simp [le_iff_lt_or_eq, ne]
  exact absurd ranked.1 (not_le.mpr (same ▸ ranked.2))

theorem HasRank.perm (same : sorted.Perm values) (ranked : HasRank sorted rank value) : HasRank values rank value := by
  rw [HasRank, same.countP_eq, same.countP_eq] at ranked
  exact ranked

theorem HasRank.of_getElem? (ordered : sorted.Pairwise (· ≤ ·)) (found : sorted[rank]? = some value) :
    HasRank sorted rank value := by
  induction sorted generalizing rank with
  | nil => simp at found
  | cons first rest ih =>
      obtain ⟨least, ordered⟩ := List.pairwise_cons.mp ordered
      cases rank with
      | zero =>
          obtain rfl : first = value := by simpa using found
          have none : (first :: rest).countP (· < first) = 0 := by
            rw [List.countP_eq_zero]
            intro v member
            rcases List.mem_cons.mp member with rfl | member
            · simp
            · simpa using least v member
          have some : 0 < (first :: rest).countP (· ≤ first) :=
            List.countP_pos_iff.mpr ⟨first, List.mem_cons_self, by simp⟩
          exact ⟨none.le, some⟩
      | succ rank =>
          have found : rest[rank]? = some value := by simpa using found
          have inOrder : first ≤ value := least value (List.mem_of_getElem? found)
          obtain ⟨below, above⟩ := ih ordered found
          refine ⟨?_, ?_⟩
          · rw [List.countP_cons]
            split <;> omega
          · rw [List.countP_cons, if_pos (by simpa using inOrder)]
            omega

theorem exists_hasRank (values : List α) {rank : Nat} (inside : rank < values.length) : ∃ value, HasRank values rank value := by
  have place : rank < (values.insertionSort (· ≤ ·)).length := by rwa [List.length_insertionSort]
  have ordered := List.pairwise_insertionSort (· ≤ ·) values
  exact ⟨_, (HasRank.of_getElem? ordered (List.getElem?_eq_getElem place)).perm (List.perm_insertionSort (· ≤ ·) values)⟩

end Ranks

/-- The median: the middle value, or the mean of the two middle ones, rounded toward zero. -/
inductive IsMedian (values : List Int) : Int → Prop where
  | odd {middle : Int} (parity : values.length % 2 = 1) (ranked : HasRank values (values.length / 2) middle) :
      IsMedian values middle
  | even {low high : Int} (parity : values.length % 2 = 0) (rankedLow : HasRank values (values.length / 2 - 1) low)
      (rankedHigh : HasRank values (values.length / 2) high) : IsMedian values ((low + high).tdiv 2)

variable {values : List Int} {median other : Int}

theorem isMedian_odd (parity : values.length % 2 = 1) :
    IsMedian values median ↔ HasRank values (values.length / 2) median := by
  constructor
  · rintro (⟨_, ranked⟩ | ⟨even, _, _⟩)
    · exact ranked
    · omega
  · exact .odd parity

theorem IsMedian.unique (first : IsMedian values median) (second : IsMedian values other) : median = other := by
  cases first with
  | odd parity ranked => exact ranked.unique ((isMedian_odd parity).mp second)
  | even parity low high =>
      cases second with
      | odd odd _ => omega
      | even _ low' high' => rw [low.unique low', high.unique high']

theorem IsMedian.length_pos (median : IsMedian values other) : 0 < values.length := by
  cases median with
  | odd _ ranked => exact Nat.zero_lt_of_lt ranked.lt_length
  | even _ _ high => exact Nat.zero_lt_of_lt high.lt_length

theorem exists_isMedian (values : List Int) (some : 0 < values.length) : ∃ median, IsMedian values median := by
  have middle : values.length / 2 < values.length := by omega
  have before : values.length / 2 - 1 < values.length := by omega
  obtain ⟨high, rankedHigh⟩ := exists_hasRank values middle
  rcases Nat.mod_two_eq_zero_or_one values.length with even | odd
  · obtain ⟨low, rankedLow⟩ := exists_hasRank values before
    exact ⟨_, .even even rankedLow rankedHigh⟩
  · exact ⟨high, .odd odd rankedHigh⟩

def Minority (values : List Int) (property : Int → Bool) : Prop := 2 * values.countP property < values.length

instance (property : Int → Bool) : Decidable (Minority values property) := inferInstanceAs (Decidable (_ < _))

section Odd

variable {bound : Int} (parity : values.length % 2 = 1) (isMedian : IsMedian values median)
include parity isMedian

theorem lt_median_iff : bound < median ↔ Minority values (· ≤ bound) := by
  rw [((isMedian_odd parity).mp isMedian).lt_iff, Minority]
  omega

theorem median_lt_iff : median < bound ↔ Minority values (bound ≤ ·) := by
  have split := values.length_eq_countP_add_countP (· < bound)
  have others : values.countP (fun v => ¬decide (v < bound) = true) = values.countP (bound ≤ ·) :=
    List.countP_congr fun v _ => by simp
  rw [((isMedian_odd parity).mp isMedian).gt_iff, Minority]
  omega

end Odd

end BitCrystal.Data
