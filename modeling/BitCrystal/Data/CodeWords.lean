import BitCrystal.Data.Replacement

namespace BitCrystal.Data

/-! # Substitution by code words

Every character of a text is written as a code word, and the words are replaced by their
characters again, one word after the other.  Words of one length that start with a run of
one marker are found only where they were written, as long as the text itself has no such
run: characters that are already back cannot spell the start of a word. -/

variable {α : Type} [DecidableEq α]

/-- No word is found inside another one, but for its last character. -/
structure SpacedWords (marker : α) (run width : Nat) (words : List (List α)) : Prop where
  length : ∀ w ∈ words, w.length = width
  marked : ∀ w ∈ words, ∀ d < run, w[d]? = some marker
  inside : ∀ v ∈ words, ∀ w ∈ words, ∀ start, 0 < start → start + 1 < width → ¬ v.drop start <+: w
  run_lt : run < width

def markers (marker : α) (s : List α) : Nat := (s.takeWhile (· = marker)).length

/-- A text when the words of the characters `done` are replaced. -/
def rendered (word : α → List α) (done : List α) (s : List α) : List α :=
  s.flatMap fun c => if c ∈ done then [c] else word c

namespace SpacedWords

variable {marker : α} {run width : Nat} {words : List (List α)} {word : α → List α} {done s tail : List α}

omit [DecidableEq α] in
theorem drop_eq (spaced : SpacedWords marker run width words) {w : List α} (member : w ∈ words) {d : Nat}
    (early : d < run) : w.drop d = marker :: w.drop (d + 1) := by
  have mark := spaced.marked w member d early
  obtain ⟨inside, value⟩ := List.getElem?_eq_some_iff.mp mark
  rw [List.drop_eq_getElem_cons inside, value]

omit [DecidableEq α] in
theorem late (spaced : SpacedWords marker run width words) {w v : List α} (member : w ∈ words) (inWords : v ∈ words)
    {d : Nat} (some : 0 < d) (early : d < run) : ¬ w.drop d <+: v := by
  have lt := spaced.run_lt
  exact spaced.inside w member v inWords d some (by omega)

theorem late_absent (spaced : SpacedWords marker run width words) (each : ∀ c ∈ s, word c ∈ words)
    (cut : ∃ v ∈ words, tail <+: v) {w : List α} (member : w ∈ words) {d : Nat} (some : 0 < d)
    (few : d + markers marker s < run) : ¬ w.drop d <+: rendered word done s ++ tail := by
  induction s generalizing d with
  | nil =>
      obtain ⟨v, inWords, front⟩ := cut
      intro occurrence
      exact spaced.late member inWords some (by omega) (occurrence.trans front)
  | cons c s ih =>
      intro occurrence
      rw [rendered, List.flatMap_cons, List.append_assoc] at occurrence
      split at occurrence
      · rw [spaced.drop_eq member (by omega), List.cons_append, List.nil_append, List.cons_prefix_cons] at occurrence
        obtain ⟨same, later⟩ := occurrence
        have more : markers marker (c :: s) = markers marker s + 1 := by
          rw [markers, List.takeWhile_cons_of_pos (by simpa using same.symm), List.length_cons, markers]
        exact ih (fun c' member' => each c' (List.mem_cons_of_mem c member')) (Nat.succ_pos d) (by omega) later
      · have inWords := each c List.mem_cons_self
        have le : (w.drop d).length ≤ (word c).length := by
          rw [List.length_drop, spaced.length w member, spaced.length _ inWords]
          exact Nat.sub_le width d
        have front := List.prefix_of_prefix_length_le occurrence (List.prefix_append _ _) le
        exact spaced.late member inWords some (by omega) front

theorem apart (spaced : SpacedWords marker run width words) (each : ∀ c ∈ s, word c ∈ words)
    (cut : ∃ v ∈ words, tail <+: v) (few : 1 + markers marker s < run) {v w : List α} (inWords : v ∈ words)
    (member : w ∈ words) (other : v ≠ w) {start : Nat} (inside : start < v.length) :
    ¬ w <+: v.drop start ++ (rendered word done s ++ tail) := by
  intro occurrence
  have lengthV := spaced.length v inWords
  have lengthW := spaced.length w member
  rcases Nat.eq_zero_or_pos start with rfl | later
  · rw [List.drop_zero] at occurrence
    have front := List.prefix_of_prefix_length_le occurrence (List.prefix_append _ _) (by omega)
    exact other (front.eq_of_length (by omega)).symm
  · by_cases last : start + 1 < width
    · have le : (v.drop start).length ≤ w.length := by
        rw [List.length_drop]
        omega
      have front := List.prefix_of_prefix_length_le (List.prefix_append _ _) occurrence le
      exact spaced.inside v inWords w member start later last front
    · -- only the last character of `v` is before the rest
      have one : (v.drop start).length = 1 := by
        rw [List.length_drop]
        omega
      obtain ⟨c, only⟩ := List.length_eq_one_iff.mp one
      have whole : w = marker :: w.drop 1 := by
        have split := spaced.drop_eq member (show 0 < run by omega)
        rwa [List.drop_zero] at split
      rw [only, whole, List.cons_append, List.nil_append, List.cons_prefix_cons] at occurrence
      exact spaced.late_absent each cut member Nat.one_pos few occurrence.2

theorem replaceAll_rendered (spaced : SpacedWords marker run width words) (each : ∀ c ∈ s, word c ∈ words)
    (cut : ∃ v ∈ words, tail <+: v) (short : tail.length < width)
    (few : ∀ t, t <:+ s → 1 + markers marker t < run) {w : List α} (member : w ∈ words) {c₀ : α}
    (only : ∀ c ∈ s, word c = w ↔ c = c₀) :
    replaceAll w [c₀] (rendered word done s ++ tail) = rendered word (c₀ :: done) s ++ tail := by
  induction s with
  | nil => exact replaceAll_short (by rw [rendered, List.flatMap_nil, List.nil_append, spaced.length w member]; exact short)
  | cons c s ih =>
      have eachRest : ∀ c' ∈ s, word c' ∈ words := fun c' member' => each c' (List.mem_cons_of_mem c member')
      have fewRest := few s (List.suffix_cons c s)
      have rest := ih eachRest (fun t suffix => few t (suffix.trans (List.suffix_cons c s)))
        fun c' member' => only c' (List.mem_cons_of_mem c member')
      have some : w ≠ [] := by
        intro empty
        have length := spaced.length w member
        rw [empty, List.length_nil] at length
        omega
      have split (done : List α) : rendered word done (c :: s) ++ tail =
          (if c ∈ done then [c] else word c) ++ (rendered word done s ++ tail) := by
        rw [rendered, List.flatMap_cons, List.append_assoc, rendered]
      rw [split, split]
      by_cases back : c ∈ done
      · rw [if_pos back, if_pos (List.mem_cons_of_mem c₀ back), ← rest]
        refine replaceAll_piece fun start inside occurrence => ?_
        obtain rfl : start = 0 := by simpa using inside
        have whole : w = marker :: w.drop 1 := by
          have split := spaced.drop_eq member (show 0 < run by omega)
          rwa [List.drop_zero] at split
        rw [whole, List.drop_zero, List.cons_append, List.nil_append, List.cons_prefix_cons] at occurrence
        exact spaced.late_absent eachRest cut member Nat.one_pos fewRest occurrence.2
      · rw [if_neg back]
        by_cases here : c = c₀
        · rw [if_pos (by rw [here]; exact List.mem_cons_self), (only c List.mem_cons_self).mpr here, here, ← rest]
          exact replaceAll_occurrence some _
        · have outside : c ∉ c₀ :: done := by
            intro inside
            rcases List.mem_cons.mp inside with same | inside
            · exact here same
            · exact back inside
          rw [if_neg outside, ← rest]
          refine replaceAll_piece fun start inside => ?_
          exact spaced.apart eachRest cut fewRest (each c List.mem_cons_self) member
            (fun same => here ((only c List.mem_cons_self).mp same)) inside

/-- When the words of all characters are replaced, the text is back; a part of a word after it stays. -/
theorem foldl_replaceAll (spaced : SpacedWords marker run width words) (each : ∀ c ∈ s, word c ∈ words)
    (cut : ∃ v ∈ words, tail <+: v) (short : tail.length < width)
    (few : ∀ t, t <:+ s → 1 + markers marker t < run) {pairs : List (List α × α)}
    (members : ∀ pair ∈ pairs, pair.1 ∈ words) (only : ∀ pair ∈ pairs, ∀ c ∈ s, word c = pair.1 ↔ c = pair.2)
    (all : ∀ c ∈ s, c ∈ done ∨ c ∈ pairs.map Prod.snd) :
    pairs.foldl (fun text pair => replaceAll pair.1 [pair.2] text) (rendered word done s ++ tail) = s ++ tail := by
  induction pairs generalizing done with
  | nil =>
      have back : rendered word done s = s := by
        have single : s.flatMap (fun c => if c ∈ done then [c] else word c) = s.flatMap fun c => [c] :=
          List.flatMap_congr fun c member => if_pos ((all c member).resolve_right (by simp))
        rw [rendered, single, List.flatMap_singleton']
      rw [List.foldl_nil, back]
  | cons pair pairs ih =>
      rw [List.foldl_cons, spaced.replaceAll_rendered each cut short few (members pair List.mem_cons_self)
        (only pair List.mem_cons_self)]
      refine ih (fun other member => members other (List.mem_cons_of_mem pair member))
        (fun other member => only other (List.mem_cons_of_mem pair member)) fun c member => ?_
      rcases all c member with back | later
      · exact .inl (List.mem_cons_of_mem _ back)
      · rcases List.mem_cons.mp later with same | later
        · exact .inl (by rw [same]; exact List.mem_cons_self)
        · exact .inr later

omit [DecidableEq α] in
theorem exists_cut (spaced : SpacedWords marker run width words) (each : ∀ c ∈ s, word c ∈ words)
    (some : ∃ v, v ∈ words) {text : List α} (front : text <+: s.flatMap word) :
    ∃ front tail, front <+: s ∧ text = front.flatMap word ++ tail ∧ tail.length < width ∧ ∃ v ∈ words, tail <+: v := by
  have wide : 0 < width := Nat.zero_lt_of_lt spaced.run_lt
  induction s generalizing text with
  | nil =>
      obtain ⟨v, inWords⟩ := some
      have empty : text = [] := List.prefix_nil.mp front
      exact ⟨[], [], List.prefix_rfl, by rw [empty]; rfl, wide, v, inWords, List.nil_prefix⟩
  | cons c s ih =>
      have inWords := each c List.mem_cons_self
      have length := spaced.length _ inWords
      rw [List.flatMap_cons] at front
      by_cases short : text.length < width
      · have part := List.prefix_of_prefix_length_le front (List.prefix_append _ _) (by omega)
        exact ⟨[], text, List.nil_prefix, rfl, short, word c, inWords, part⟩
      · obtain ⟨more, rfl⟩ := List.prefix_of_prefix_length_le (List.prefix_append _ _) front (by omega)
        have later := (List.prefix_append_right_inj _).mp front
        obtain ⟨first, tail, prefixed, rfl, rest⟩ :=
          ih (fun c' member => each c' (List.mem_cons_of_mem c member)) later
        refine ⟨c :: first, tail, (List.prefix_cons_inj c).mpr prefixed, ?_, rest⟩
        rw [List.flatMap_cons, List.append_assoc]

end SpacedWords

end BitCrystal.Data
