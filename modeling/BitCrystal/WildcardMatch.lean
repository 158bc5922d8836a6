import BitCrystal.Base58
import BitCrystal.Data.Globs
import BitCrystal.Data.Outcome

namespace BitCrystal

open Data

/-! # WildcardMatch

A `const char*` is the part of its array from the character it points at: `tail` moves it
forward, and beyond the last character of the array nothing may be read. -/

/-- `*p` -/
def charAt (p : Bytes) : Except Failure UInt8 := expect p.head? (.undefined "read past the end of an array")

/-- The recursion and the loop of WildcardMatch, which may go on for `fuel` turns. -/
def wildcardMatchFrom : (fuel : Nat) → (psz mask : Bytes) → Except Failure Bool
  | 0, _, _ => .error .endless
  | fuel + 1, psz, mask => do
      let m ← charAt mask
      if m = 0 then
        return (← charAt psz) == 0
      else if m = 0x2a then
        if ← wildcardMatchFrom fuel psz mask.tail then return true
        if (← charAt psz) = 0 then return false
        wildcardMatchFrom fuel psz.tail mask
      else if m = 0x3f then
        if (← charAt psz) = 0 then return false
        wildcardMatchFrom fuel psz.tail mask.tail
      else
        if (← charAt psz) ≠ (← charAt mask) then return false
        wildcardMatchFrom fuel psz.tail mask.tail

/-- The array behind `str.c_str()`. -/
def cArray (str : Bytes) : Bytes := str ++ [0]

def wildcardMatch (fuel : Nat) (str mask : Bytes) : Except Failure Bool :=
  wildcardMatchFrom fuel (cArray str) (cArray mask)

/-! ## The language of a mask -/

def globAtom (c : UInt8) : GlobAtom UInt8 :=
  if c = 0x2a then .many else if c = 0x3f then .one else .literal c

/-- The strings that a mask denotes: `?` stands for any one character, `*` for any string. -/
def maskLanguage (mask : Bytes) : Language UInt8 := globLanguage (mask.map globAtom)

section Masks

variable {text mask : Bytes}

theorem mem_maskLanguage_nil : text ∈ maskLanguage [] ↔ text = [] := mem_globLanguage_nil

theorem mem_maskLanguage_star : text ∈ maskLanguage (0x2a :: mask) ↔
    text ∈ maskLanguage mask ∨ ∃ c rest, text = c :: rest ∧ rest ∈ maskLanguage (0x2a :: mask) :=
  mem_globLanguage_many

theorem mem_maskLanguage_question :
    text ∈ maskLanguage (0x3f :: mask) ↔ ∃ c, ∃ rest ∈ maskLanguage mask, text = c :: rest :=
  mem_globLanguage_one

theorem mem_maskLanguage_other {m : UInt8} (star : m ≠ 0x2a) (question : m ≠ 0x3f) :
    text ∈ maskLanguage (m :: mask) ↔ ∃ rest ∈ maskLanguage mask, text = m :: rest := by
  have literal : globAtom m = .literal m := by rw [globAtom, if_neg star, if_neg question]
  rw [maskLanguage, List.map_cons, literal]
  exact mem_globLanguage_literal

end Masks

/-! ## Reading C strings -/

@[simp] theorem charAt_cons (c : UInt8) (p : Bytes) : charAt (c :: p) = .ok c := rfl

/-- The first character of a C string: the terminator when the string is at its end. -/
theorem charAt_text (text more : Bytes) : charAt (text ++ 0 :: more) = .ok (text.headD 0) := by
  cases text <;> rfl

/-- The array behind a string is its text up to the first zero, that terminator and what follows. -/
theorem cArray_eq (str : Bytes) : ∃ more, cArray str = cStr str ++ 0 :: more := by
  induction str with
  | nil => exact ⟨[], rfl⟩
  | cons c str ih =>
      by_cases terminator : c = 0
      · exact ⟨cArray str, by simp [cArray, cStr, terminator]⟩
      · obtain ⟨more, split⟩ := ih
        have kept : cStr (c :: str) = c :: cStr str := List.takeWhile_cons_of_pos (by simpa using terminator)
        refine ⟨more, ?_⟩
        rw [kept, List.cons_append, ← split]
        rfl

theorem cStr_plain (str : Bytes) : ∀ c ∈ cStr str, c ≠ 0 := fun c member => by
  simpa using List.mem_takeWhile_imp member

theorem cStr_length_le (str : Bytes) : (cStr str).length ≤ str.length :=
  (List.takeWhile_sublist _).length_le

/-! ## One turn -/

section Turns

variable (fuel : Nat) (psz mask : Bytes)

theorem wildcardMatchFrom_end :
    wildcardMatchFrom (fuel + 1) psz (0 :: mask) = (do return (← charAt psz) == 0) := rfl

theorem wildcardMatchFrom_star : wildcardMatchFrom (fuel + 1) psz (0x2a :: mask) = (do
    if ← wildcardMatchFrom fuel psz mask then return true
    if (← charAt psz) = 0 then return false
    wildcardMatchFrom fuel psz.tail (0x2a :: mask)) := rfl

theorem wildcardMatchFrom_question : wildcardMatchFrom (fuel + 1) psz (0x3f :: mask) = (do
    if (← charAt psz) = 0 then return false
    wildcardMatchFrom fuel psz.tail mask) := rfl

theorem wildcardMatchFrom_other {m : UInt8} (inside : m ≠ 0) (star : m ≠ 0x2a) (question : m ≠ 0x3f) :
    wildcardMatchFrom (fuel + 1) psz (m :: mask) = (do
      if (← charAt psz) ≠ m then return false
      wildcardMatchFrom fuel psz.tail mask) := by
  rw [wildcardMatchFrom, charAt_cons, ok_bind, if_neg inside, if_neg star, if_neg question]
  rfl

end Turns

/-- What the loop answers, by the characters it finds at the two pointers.  The fuel covers what is
left of both strings; what follows their terminators has no part in it. -/
theorem wildcardMatchFrom_eq {fuel : Nat} {text mask : Bytes} (afterText afterMask : Bytes)
    (plain : ∀ c ∈ text, c ≠ 0) (plainMask : ∀ c ∈ mask, c ≠ 0) (enough : text.length + mask.length < fuel) :
    ∃ verdict, wildcardMatchFrom fuel (text ++ 0 :: afterText) (mask ++ 0 :: afterMask) = .ok verdict ∧
      (verdict = true ↔ text ∈ maskLanguage mask) := by
  induction fuel generalizing text mask with
  | zero => exact absurd enough (Nat.not_lt_zero _)
  | succ fuel ih =>
      cases mask with
      | nil =>
          refine ⟨text.headD 0 == 0, ?_, ?_⟩
          · rw [List.nil_append, wildcardMatchFrom_end, charAt_text]
            rfl
          · rw [mem_maskLanguage_nil]
            cases text with
            | nil => simp
            | cons c text => simp [plain c List.mem_cons_self]
      | cons m mask =>
          have inMask : ∀ c ∈ mask, c ≠ 0 := fun c member => plainMask c (List.mem_cons_of_mem m member)
          have inside : m ≠ 0 := plainMask m List.mem_cons_self
          have shorter : text.length + mask.length < fuel := by
            rw [List.length_cons] at enough
            omega
          -- what the turns after this one answer once both pointers have moved on
          have moveOn : ∀ c rest, text = c :: rest → ∃ verdict,
              wildcardMatchFrom fuel (rest ++ 0 :: afterText) (mask ++ 0 :: afterMask) = .ok verdict ∧
                (verdict = true ↔ rest ∈ maskLanguage mask) := by
            rintro c rest rfl
            exact ih (fun d member => plain d (List.mem_cons_of_mem c member)) inMask
              (by rw [List.length_cons] at shorter; omega)
          rw [List.cons_append]
          by_cases star : m = 0x2a
          · subst star
            obtain ⟨without, ran, skips⟩ := ih plain inMask shorter
            rw [wildcardMatchFrom_star, ran, ok_bind, mem_maskLanguage_star]
            cases without with
            | true => exact ⟨true, rfl, by simpa using .inl (skips.mp rfl)⟩
            | false =>
                have notSkipped : text ∉ maskLanguage mask := by simpa using skips
                rw [charAt_text, if_neg Bool.false_ne_true, ok_bind]
                cases text with
                | nil => exact ⟨false, rfl, by simpa using notSkipped⟩
                | cons c text =>
                    obtain ⟨verdict, ran, takes⟩ := ih (fun d member => plain d (List.mem_cons_of_mem c member)) plainMask
                      (by simp only [List.length_cons] at enough ⊢; omega)
                    refine ⟨verdict, ?_, ?_⟩
                    · rw [if_neg (by simpa using plain c List.mem_cons_self)]
                      exact ran
                    · simpa [notSkipped] using takes
          · by_cases question : m = 0x3f
            · subst question
              rw [wildcardMatchFrom_question, mem_maskLanguage_question, charAt_text, ok_bind]
              cases text with
              | nil => exact ⟨false, rfl, by simp⟩
              | cons c text =>
                  obtain ⟨verdict, ran, takes⟩ := moveOn c text rfl
                  refine ⟨verdict, ?_, ?_⟩
                  · rw [if_neg (by simpa using plain c List.mem_cons_self)]
                    exact ran
                  · simpa using takes
            · rw [wildcardMatchFrom_other fuel _ _ inside star question, mem_maskLanguage_other star question,
                charAt_text, ok_bind]
              cases text with
              | nil => exact ⟨false, by rw [if_pos (by simpa using inside.symm)]; rfl, by simp⟩
              | cons c text =>
                  obtain ⟨verdict, ran, takes⟩ := moveOn c text rfl
                  by_cases same : c = m
                  · refine ⟨verdict, ?_, ?_⟩
                    · rw [if_neg (by simpa using same)]
                      exact ran
                    · simpa [same] using takes
                  · exact ⟨false, by rw [if_pos (by simpa using same)]; rfl, by simp [same]⟩

theorem wildcardMatch_eq {fuel : Nat} {str mask : Bytes} (enough : str.length + mask.length < fuel) :
    ∃ verdict, wildcardMatch fuel str mask = .ok verdict ∧ (verdict = true ↔ cStr str ∈ maskLanguage (cStr mask)) := by
  have lengths := Nat.add_le_add (cStr_length_le str) (cStr_length_le mask)
  obtain ⟨afterText, text⟩ := cArray_eq str
  obtain ⟨afterMask, pattern⟩ := cArray_eq mask
  rw [wildcardMatch, text, pattern]
  exact wildcardMatchFrom_eq afterText afterMask (cStr_plain str) (cStr_plain mask) (by omega)

/-- Every call answers whether the string is in the language of the mask, as soon as the recursion may
go on for the characters of both.  The answer is the same whatever follows the two terminators, also
where nothing follows them that could be read. -/
theorem wildcardMatch_decides (str mask : Bytes) : ∃ verdict : Bool,
    (verdict = true ↔ cStr str ∈ maskLanguage (cStr mask)) ∧
      (∀ fuel afterText afterMask, (cStr str).length + (cStr mask).length < fuel →
        wildcardMatchFrom fuel (cStr str ++ 0 :: afterText) (cStr mask ++ 0 :: afterMask) = .ok verdict) ∧
      ∀ fuel, str.length + mask.length < fuel → wildcardMatch fuel str mask = .ok verdict := by
  obtain ⟨verdict, -, decides⟩ :=
    wildcardMatchFrom_eq [] [] (cStr_plain str) (cStr_plain mask) (Nat.lt_succ_self _)
  have always : ∀ fuel afterText afterMask, (cStr str).length + (cStr mask).length < fuel →
      wildcardMatchFrom fuel (cStr str ++ 0 :: afterText) (cStr mask ++ 0 :: afterMask) = .ok verdict := by
    intro fuel afterText afterMask enough
    obtain ⟨answer, ran, same⟩ := wildcardMatchFrom_eq afterText afterMask (cStr_plain str) (cStr_plain mask) enough
    rwa [Bool.eq_iff_iff.mpr (same.trans decides.symm)] at ran
  refine ⟨verdict, decides, always, fun fuel enough => ?_⟩
  obtain ⟨answer, ran, same⟩ := wildcardMatch_eq enough
  rwa [Bool.eq_iff_iff.mpr (same.trans decides.symm)] at ran

example : wildcardMatch 14 (ascii "abcdef") (ascii "a?cde??") = .ok false := by decide

/-! ## Who may use the RPC server -/

end BitCrystal
