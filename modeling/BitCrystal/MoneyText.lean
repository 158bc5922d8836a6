import BitCrystal.Money
import Mathlib.Data.Rat.Cast.Order
import Mathlib.Tactic.FieldSimp
import Mathlib.Tactic.Ring

namespace BitCrystal

open Data

/-! # Amounts of money as text -/

def CENT : Int := COIN / 100

/-! ## FormatMoney -/

/-- `%0*d` for a number that is not negative. -/
def zeroPadded (width : Nat) (n : Nat) : List Char :=
  List.replicate (width - (Nat.toDigits 10 n).length) '0' ++ Nat.toDigits 10 n

/-- How many characters the loop of FormatMoney trims from a text that is listed from its end. -/
def trimCount : List Char → Nat
  | last :: second :: third :: rest =>
      if last = '0' ∧ third.isDigit then trimCount (second :: third :: rest) + 1 else 0
  | _ => 0

def formatMoney (n : Int) (fPlus : Bool) : List Char :=
  let n_abs := if 0 < n then n else -n
  let quotient := n_abs.tdiv COIN
  let remainder := n_abs.tmod COIN
  let str := Nat.toDigits 10 quotient.toNat ++ '.' :: zeroPadded 8 remainder.toNat
  let nTrim := trimCount str.reverse
  let str := str.take (str.length - nTrim)
  if n < 0 then '-' :: str else if fPlus ∧ 0 < n then '+' :: str else str

/-! ## ParseMoney -/

def isSpace (c : Char) : Bool := c ∈ [' ', '\t', '\n', '\x0b', '\x0c', '\r']

theorem isSpace_of_digit {c : Char} (digit : c.isDigit = true) : isSpace c = false := by
  rw [Bool.eq_false_iff]
  intro space
  simp only [isSpace, List.mem_cons, List.not_mem_nil, or_false, decide_eq_true_eq] at space
  rcases space with rfl | rfl | rfl | rfl | rfl | rfl <;> cases digit

/-- `*p - '0'` -/
def digitValue (c : Char) : Nat := c.toNat - '0'.toNat

/-- The loop over the digits after the point: `nUnits` and what it leaves. -/
def parseUnits (nMult nUnits : Int) : List Char → Int × List Char
  | [] => (nUnits, [])
  | c :: rest =>
      if c.isDigit ∧ 0 < nMult then parseUnits (nMult / 10) (nUnits + nMult * digitValue c) rest
      else (nUnits, c :: rest)

/-- The loop over the digits before the point: `strWhole`, `nUnits` and what it leaves. -/
def parseWhole (strWhole : List Char) : List Char → Option (List Char × Int × List Char)
  | [] => some (strWhole, 0, [])
  | c :: rest =>
      if c = '.' then some (strWhole, parseUnits (CENT * 10) 0 rest)
      else if isSpace c then some (strWhole, 0, c :: rest)
      else if !c.isDigit then none
      else parseWhole (strWhole ++ [c]) rest

/-- strtoll for a text of digits. -/
def atoi64 (str : List Char) : Int := min (Nat.ofDigitChars 10 str 0 : Int) (2 ^ 63 - 1)

/-- The characters that `c_str` shows. -/
def cString (str : List Char) : List Char := str.takeWhile (· ≠ '\x00')

def parseMoney (str : List Char) : Option Int := do
  let p := (cString str).dropWhile isSpace
  let (strWhole, nUnits, p) ← parseWhole [] p
  if p.any fun c => !isSpace c then none
  else if 10 < strWhole.length then none
  else if nUnits < 0 ∨ COIN < nUnits then none
  else some (atoi64 strWhole * COIN + nUnits)

/-! ## What the loops read -/

theorem parseUnits_spec (k : Nat) (nUnits : Int) (str : List Char) :
    ∃ used rest, str = used ++ rest ∧ (∀ c ∈ used, c.isDigit = true) ∧ used.length ≤ k ∧
      (used.length = k ∨ ∀ c ∈ rest.head?, c.isDigit = false) ∧
      parseUnits ((10 ^ k / 10 : Nat) : Int) nUnits str =
        (nUnits + (Nat.ofDigitChars 10 used 0 * 10 ^ (k - used.length) : Nat), rest) := by
  induction k generalizing nUnits str with
  | zero =>
      refine ⟨[], str, rfl, by simp, le_refl _, .inl rfl, ?_⟩
      cases str with
      | nil => simp [parseUnits]
      | cons c rest => simp [parseUnits]
  | succ k ih =>
      have mult : 10 ^ (k + 1) / 10 = 10 ^ k := by
        rw [Nat.pow_succ, Nat.mul_div_cancel _ (by decide)]
      rw [mult]
      cases str with
      | nil => exact ⟨[], [], rfl, by simp, by simp, .inr (by simp), by simp [parseUnits]⟩
      | cons c rest =>
          cases digit : c.isDigit with
          | false =>
              refine ⟨[], c :: rest, rfl, by simp, by simp, .inr (by simpa using digit), ?_⟩
              simp [parseUnits, digit]
          | true =>
              obtain ⟨used, tail, split, digits, few, stop, run⟩ :=
                ih (nUnits + ((10 ^ k : Nat) : Int) * digitValue c) rest
              refine ⟨c :: used, tail, by rw [split, List.cons_append], ?_, by simpa using few, ?_, ?_⟩
              · intro other member
                rcases List.mem_cons.mp member with rfl | later
                · exact digit
                · exact digits other later
              · exact stop.imp_left fun all => by rw [List.length_cons, all]
              · have next : ((10 ^ k : Nat) : Int) / 10 = ((10 ^ k / 10 : Nat) : Int) := by norm_cast
                have positive : (0 : Int) < ((10 ^ k : Nat) : Int) := by positivity
                have value : Nat.ofDigitChars 10 (c :: used) 0 * 10 ^ (k + 1 - (used.length + 1)) =
                    10 ^ k * digitValue c + Nat.ofDigitChars 10 used 0 * 10 ^ (k - used.length) := by
                  have whole : 10 ^ k = 10 ^ used.length * 10 ^ (k - used.length) := by
                    rw [← Nat.pow_add, Nat.add_sub_cancel' few]
                  rw [Nat.ofDigitChars_cons, Nat.ofDigitChars_eq_ofDigitChars_zero, Nat.add_sub_add_right, whole,
                    digitValue]
                  ring
                rw [parseUnits, if_pos ⟨digit, positive⟩, next, run, List.length_cons, value]
                push_cast
                ring_nf

theorem parseWhole_spec {strWhole str whole rest : List Char} {nUnits : Int}
    (run : parseWhole strWhole str = some (whole, nUnits, rest)) :
    ∃ digits tail, str = digits ++ tail ∧ (∀ c ∈ digits, c.isDigit = true) ∧ whole = strWhole ++ digits ∧
      (tail = rest ∧ nUnits = 0 ∨ ∃ after, tail = '.' :: after ∧ parseUnits (CENT * 10) 0 after = (nUnits, rest)) := by
  induction str generalizing strWhole with
  | nil =>
      cases run
      exact ⟨[], [], rfl, by simp, by simp, .inl ⟨rfl, rfl⟩⟩
  | cons c tail ih =>
      rw [parseWhole] at run
      split at run
      · rename_i point
        obtain ⟨rfl, units⟩ := Prod.mk.inj (Option.some.inj run)
        exact ⟨[], c :: tail, rfl, by simp, by simp, .inr ⟨tail, by rw [point], units⟩⟩
      split at run
      · cases run
        exact ⟨[], c :: tail, rfl, by simp, by simp, .inl ⟨rfl, rfl⟩⟩
      split at run
      · cases run
      · rename_i digit
        rw [Bool.not_eq_true', Bool.not_eq_false] at digit
        obtain ⟨digits, after, split, each, total, fraction⟩ := ih run
        refine ⟨c :: digits, after, by rw [split, List.cons_append], ?_, by rw [total, List.append_assoc]; rfl,
          fraction⟩
        intro other member
        rcases List.mem_cons.mp member with rfl | later
        · exact digit
        · exact each other later

theorem parseWhole_digits {strWhole digits tail : List Char} (each : ∀ c ∈ digits, c.isDigit = true) :
    parseWhole strWhole (digits ++ tail) = parseWhole (strWhole ++ digits) tail := by
  induction digits generalizing strWhole with
  | nil => rw [List.nil_append, List.append_nil]
  | cons c rest ih =>
      have digit := each c List.mem_cons_self
      have point : c ≠ '.' := by
        rintro rfl
        cases digit
      have space : ¬ isSpace c = true := by
        intro space
        simp only [isSpace, decide_eq_true_eq, List.mem_cons, List.not_mem_nil, or_false] at space
        rcases space with rfl | rfl | rfl | rfl | rfl | rfl <;> cases digit
      rw [List.cons_append, parseWhole, if_neg point, if_neg space, if_neg (by simp [digit]),
        ih fun other later => each other (List.mem_cons_of_mem c later), List.append_assoc]
      rfl

theorem ofDigitChars_lt {digits : List Char} (each : ∀ c ∈ digits, c.isDigit = true) :
    Nat.ofDigitChars 10 digits 0 < 10 ^ digits.length := by
  induction digits with
  | nil => simp
  | cons c rest ih =>
      have digit := each c List.mem_cons_self
      have below : c.toNat - '0'.toNat ≤ 9 := by
        simp only [Char.isDigit, Bool.and_eq_true, decide_eq_true_eq] at digit
        have upper : c.toNat ≤ 57 := digit.2
        have zero : '0'.toNat = 48 := rfl
        omega
      have later := ih fun other later => each other (List.mem_cons_of_mem c later)
      rw [Nat.ofDigitChars_cons, Nat.ofDigitChars_eq_ofDigitChars_zero, List.length_cons, Nat.pow_succ, Nat.mul_zero,
        Nat.zero_add]
      have scaled : 10 ^ rest.length * (c.toNat - '0'.toNat) ≤ 10 ^ rest.length * 9 := Nat.mul_le_mul_left _ below
      omega

theorem atoi64_eq {digits : List Char} (each : ∀ c ∈ digits, c.isDigit = true) (short : digits.length ≤ 10) :
    atoi64 digits = Nat.ofDigitChars 10 digits 0 := by
  have below := ofDigitChars_lt each
  have bound : 10 ^ digits.length ≤ 10 ^ 10 := Nat.pow_le_pow_right (by decide) short
  exact min_eq_left (by omega)

/-! ## What an accepted text denotes -/

/-- The text is a number with digits before and after a point, and spaces around it. -/
structure Denotes (str whole fraction : List Char) : Prop where
  wholeDigits : ∀ c ∈ whole, c.isDigit = true
  fractionDigits : ∀ c ∈ fraction, c.isDigit = true
  text : ∃ before after, (∀ c ∈ before, isSpace c = true) ∧ (∀ c ∈ after, isSpace c = true) ∧
    (str = before ++ (whole ++ after) ∧ fraction = [] ∨ str = before ++ (whole ++ '.' :: (fraction ++ after)))

def decimalValue (whole fraction : List Char) : Rat :=
  Nat.ofDigitChars 10 whole 0 + Nat.ofDigitChars 10 fraction 0 / 10 ^ fraction.length

theorem parseMoney_steps {str : List Char} {nRet : Int} (run : parseMoney str = some nRet) :
    ∃ strWhole nUnits p, parseWhole [] ((cString str).dropWhile isSpace) = some (strWhole, nUnits, p) ∧
      (∀ c ∈ p, isSpace c = true) ∧ strWhole.length ≤ 10 ∧ nRet = atoi64 strWhole * COIN + nUnits := by
  unfold parseMoney at run
  obtain ⟨⟨strWhole, nUnits, p⟩, loop, checks⟩ := Option.bind_eq_some_iff.mp run
  refine ⟨strWhole, nUnits, p, loop, ?_⟩
  simp only at checks
  split at checks
  · cases checks
  · rename_i spaces
    split at checks
    · cases checks
    · split at checks
      · cases checks
      · refine ⟨?_, by omega, (Option.some.inj checks).symm⟩
        intro c member
        by_contra other
        exact spaces (List.any_eq_true.mpr ⟨c, member, by simpa using other⟩)

theorem parseUnits_cent {after rest : List Char} {nUnits : Int} (run : parseUnits (CENT * 10) 0 after = (nUnits, rest)) :
    ∃ used, after = used ++ rest ∧ (∀ c ∈ used, c.isDigit = true) ∧ used.length ≤ 5 ∧
      nUnits = (Nat.ofDigitChars 10 used 0 * 10 ^ (5 - used.length) : Nat) := by
  obtain ⟨used, rest', split, digits, few, -, spec⟩ := parseUnits_spec 5 0 after
  have same : CENT * 10 = ((10 ^ 5 / 10 : Nat) : Int) := by decide
  rw [same, spec, Prod.mk.injEq, zero_add] at run
  obtain ⟨rfl, rfl⟩ := run
  exact ⟨used, split, digits, few, rfl⟩

theorem parseMoney_denotes {str : List Char} {nRet : Int} (run : parseMoney str = some nRet) :
    ∃ whole fraction, Denotes (cString str) whole fraction ∧ (nRet : Rat) = decimalValue whole fraction * COIN := by
  obtain ⟨strWhole, nUnits, p, loop, spaces, short, rfl⟩ := parseMoney_steps run
  obtain ⟨digits, tail, split, each, same, fraction⟩ := parseWhole_spec loop
  rw [List.nil_append] at same
  subst same
  have leading : ∀ c ∈ (cString str).takeWhile isSpace, isSpace c = true := fun c member => List.mem_takeWhile_imp member
  have parts : cString str = (cString str).takeWhile isSpace ++ (strWhole ++ tail) := by
    rw [← split, List.takeWhile_append_dropWhile]
  rw [atoi64_eq each short]
  rcases fraction with ⟨rfl, rfl⟩ | ⟨after, rfl, units⟩
  · refine ⟨strWhole, [], ⟨each, by simp, _, tail, leading, spaces, .inl ⟨parts, rfl⟩⟩, ?_⟩
    simp [decimalValue]
  · obtain ⟨used, rfl, usedDigits, few, rfl⟩ := parseUnits_cent units
    refine ⟨strWhole, used, ⟨each, usedDigits, _, p, leading, spaces, .inr parts⟩, ?_⟩
    have scale : (COIN : Rat) = 10 ^ used.length * 10 ^ (5 - used.length) := by
      rw [← pow_add, Nat.add_sub_cancel' few]
      norm_num [COIN]
    have positive : (10 : Rat) ^ used.length ≠ 0 := by positivity
    rw [decimalValue, add_mul]
    push_cast
    rw [scale]
    field_simp

/-! ## Reading back what was formatted -/

theorem zeroPadded_digits (width n : Nat) : ∀ c ∈ zeroPadded width n, c.isDigit = true := by
  intro c member
  rcases List.mem_append.mp member with padding | digit
  · rw [List.eq_of_mem_replicate padding]
    rfl
  · exact Nat.isDigit_of_mem_toDigits (by decide) (by decide) digit

theorem zeroPadded_value (width n : Nat) : Nat.ofDigitChars 10 (zeroPadded width n) 0 = n := by
  rw [zeroPadded, Nat.ofDigitChars_append, Nat.ofDigitChars_replicate_zero, Nat.mul_zero,
    Nat.ofDigitChars_ten_toDigits]

theorem zeroPadded_length {width n : Nat} (positive : 0 < width) (fits : n < 10 ^ width) :
    (zeroPadded width n).length = width := by
  have short := (Nat.length_toDigits_le_iff (by decide : 1 < 10) positive).mpr fits
  rw [zeroPadded, List.length_append, List.length_replicate, Nat.sub_add_cancel short]

theorem trimCount_zeros (str : List Char) : ∃ rest, str = List.replicate (trimCount str) '0' ++ rest := by
  fun_induction trimCount str with
  | case1 last second third rest trims ih =>
      obtain ⟨kept, split⟩ := ih
      refine ⟨kept, ?_⟩
      rw [List.replicate_succ, List.cons_append, ← split, trims.1]
  | case2 last second third rest stops => exact ⟨_, rfl⟩
  | case3 str short => exact ⟨_, rfl⟩

theorem trimCount_le {fraction whole : List Char} (two : 2 ≤ fraction.length) :
    trimCount (fraction ++ '.' :: whole) + 2 ≤ fraction.length := by
  induction fraction with
  | nil => simp at two
  | cons last rest ih =>
      match rest with
      | [] => simp at two
      | [second] =>
          have stops : ¬ ('.').isDigit = true := by decide
          simp [trimCount, stops]
      | second :: third :: more =>
          have later := ih (by simp)
          simp only [List.cons_append, List.length_cons, trimCount] at later ⊢
          split <;> omega

/-- The text before the zeros are trimmed. -/
def untrimmed (quotient remainder : Nat) : List Char := Nat.toDigits 10 quotient ++ '.' :: zeroPadded 8 remainder

theorem formatMoney_untrimmed {quotient remainder : Nat} (below : (remainder : Int) < COIN) :
    formatMoney (quotient * COIN + remainder) false = (untrimmed quotient remainder).take
      ((untrimmed quotient remainder).length - trimCount (untrimmed quotient remainder).reverse) := by
  have nonneg : ¬ (quotient * COIN + remainder : Int) < 0 := by
    simp only [COIN]
    omega
  have n_abs : (if 0 < (quotient * COIN + remainder : Int) then (quotient * COIN + remainder : Int)
      else -(quotient * COIN + remainder)) = quotient * COIN + remainder :=
    ite_eq_left_iff.mpr fun notPositive => by omega
  have quotient_eq : (quotient * COIN + remainder : Int).tdiv COIN = quotient := by
    rw [Int.tdiv_eq_ediv_of_nonneg (by omega)]
    simp only [COIN] at below ⊢
    omega
  have remainder_eq : (quotient * COIN + remainder : Int).tmod COIN = remainder := by
    rw [Int.tmod_eq_emod_of_nonneg (by omega)]
    simp only [COIN] at below ⊢
    omega
  unfold formatMoney untrimmed
  simp only [n_abs, quotient_eq, remainder_eq, Int.toNat_natCast, nonneg, if_false, Bool.false_eq_true, false_and]

theorem formatMoney_coins (quotient : Nat) :
    formatMoney (quotient * COIN) false = Nat.toDigits 10 quotient ++ ['.', '0', '0'] := by
  have zeros : untrimmed quotient 0 = (Nat.toDigits 10 quotient ++ ['.', '0', '0']) ++ List.replicate 6 '0' := by
    simp [untrimmed, zeroPadded, Nat.toDigits_zero]
  have digit : ('0').isDigit = true := rfl
  have point : ¬ ('.').isDigit = true := by decide
  have six : trimCount (untrimmed quotient 0).reverse = 6 := by
    rw [zeros]
    simp [List.replicate, trimCount, digit, point]
  have text := @formatMoney_untrimmed quotient 0 (by decide)
  rw [Nat.cast_zero, add_zero] at text
  rw [text, six, zeros, List.length_append, List.length_replicate, Nat.add_sub_cancel, List.take_left]

/-- The text of an amount: the digits after the point are the eight of the remainder, without some of the
zeros at the end. -/
theorem formatMoney_eq {quotient remainder : Nat} (below : (remainder : Int) < COIN) :
    ∃ fraction nTrim, nTrim + fraction.length = 8 ∧ 2 ≤ fraction.length ∧
      (∀ c ∈ fraction, c.isDigit = true) ∧ 10 ^ nTrim * Nat.ofDigitChars 10 fraction 0 = remainder ∧
      formatMoney (quotient * COIN + remainder) false = Nat.toDigits 10 quotient ++ '.' :: fraction := by
  have small : remainder < 10 ^ 8 := by
    simp only [COIN] at below
    omega
  have eight := zeroPadded_length (by decide : 0 < 8) small
  have value := zeroPadded_value 8 remainder
  have digits := zeroPadded_digits 8 remainder
  generalize padded : zeroPadded 8 remainder = units at eight value digits
  have whole : (Nat.toDigits 10 quotient ++ '.' :: units).reverse =
      units.reverse ++ '.' :: (Nat.toDigits 10 quotient).reverse := by simp
  have kept : trimCount (units.reverse ++ '.' :: (Nat.toDigits 10 quotient).reverse) + 2 ≤ units.reverse.length :=
    trimCount_le (by rw [List.length_reverse, eight]; decide)
  obtain ⟨rest, zeros⟩ := trimCount_zeros (units.reverse ++ '.' :: (Nat.toDigits 10 quotient).reverse)
  rw [← whole] at kept zeros
  generalize trimmed : trimCount (Nat.toDigits 10 quotient ++ '.' :: units).reverse = nTrim at kept zeros
  rw [List.length_reverse, eight] at kept
  -- the trimmed zeros are the last of the eight digits
  have last : units.reverse = List.replicate nTrim '0' ++ units.reverse.drop nTrim := by
    have front := congrArg (List.take nTrim) zeros
    rw [whole, List.take_append_of_le_length (by rw [List.length_reverse]; omega),
      List.take_left' (List.length_replicate)] at front
    rw [← front, List.take_append_drop]
  have split : units = (units.reverse.drop nTrim).reverse ++ List.replicate nTrim '0' := by
    rw [← List.reverse_inj, last]
    simp
  generalize (units.reverse.drop nTrim).reverse = fraction at split
  subst split
  rw [List.length_append, List.length_replicate] at eight
  refine ⟨fraction, nTrim, by omega, by omega, fun c member => digits c (List.mem_append_left _ member), ?_, ?_⟩
  · rw [Nat.ofDigitChars_append, Nat.ofDigitChars_replicate_zero] at value
    exact value
  · rw [formatMoney_untrimmed below, untrimmed, padded, trimmed, ← List.cons_append, ← List.append_assoc,
      List.length_append, List.length_replicate, Nat.add_sub_cancel, List.take_left]

theorem cString_eq {str : List Char} (each : ∀ c ∈ str, c.isDigit = true ∨ c = '.') : cString str = str := by
  refine List.takeWhile_eq_self_iff.mpr fun c member => decide_eq_true ?_
  rintro rfl
  rcases each _ member with digit | point
  · cases digit
  · cases point

/-- A formatted amount is read as its digits: the whole ones, and those after the point if there are at most
five of them. -/
theorem parseMoney_digits {whole fraction : List Char} {nRet : Int} (nonempty : whole ≠ [])
    (wholeDigits : ∀ c ∈ whole, c.isDigit = true) (fractionDigits : ∀ c ∈ fraction, c.isDigit = true)
    (short : whole.length ≤ 10) :
    parseMoney (whole ++ '.' :: fraction) = some nRet ↔ fraction.length ≤ 5 ∧
      nRet = Nat.ofDigitChars 10 whole 0 * COIN + (Nat.ofDigitChars 10 fraction 0 * 10 ^ (5 - fraction.length) : Nat) := by
  have notSpace : ∀ c : Char, c.isDigit = true → isSpace c = false := by
    intro c digit
    rw [Bool.eq_false_iff]
    intro space
    simp only [isSpace, decide_eq_true_eq, List.mem_cons, List.not_mem_nil, or_false] at space
    rcases space with rfl | rfl | rfl | rfl | rfl | rfl <;> cases digit
  have shown : cString (whole ++ '.' :: fraction) = whole ++ '.' :: fraction := by
    refine cString_eq fun c member => ?_
    rcases List.mem_append.mp member with inWhole | later
    · exact .inl (wholeDigits c inWhole)
    · rcases List.mem_cons.mp later with rfl | inFraction
      · exact .inr rfl
      · exact .inl (fractionDigits c inFraction)
  have trimmed : (whole ++ '.' :: fraction).dropWhile isSpace = whole ++ '.' :: fraction := by
    cases whole with
    | nil => exact absurd rfl nonempty
    | cons c rest => rw [List.cons_append, List.dropWhile_cons_of_neg (by
        rw [notSpace c (wholeDigits c List.mem_cons_self)]
        decide)]
  have loop : parseWhole [] (whole ++ '.' :: fraction) = some (whole, parseUnits (CENT * 10) 0 fraction) := by
    rw [parseWhole_digits wholeDigits, List.nil_append, parseWhole, if_pos rfl]
  obtain ⟨used, rest, split, usedDigits, few, stop, units⟩ := parseUnits_spec 5 0 fraction
  have mult : CENT * 10 = ((10 ^ 5 / 10 : Nat) : Int) := by decide
  rw [← mult, zero_add] at units
  have bounds : ¬ (((Nat.ofDigitChars 10 used 0 * 10 ^ (5 - used.length) : Nat) : Int) < 0 ∨
      COIN < ((Nat.ofDigitChars 10 used 0 * 10 ^ (5 - used.length) : Nat) : Int)) := by
    have below := Nat.mul_lt_mul_of_pos_right (ofDigitChars_lt usedDigits)
      (Nat.pow_pos (by decide) : 0 < 10 ^ (5 - used.length))
    rw [← Nat.pow_add, Nat.add_sub_cancel' few] at below
    simp only [COIN]
    omega
  simp only [parseMoney, shown, trimmed, loop, units, Option.bind_eq_bind, Option.bind_some, atoi64_eq wholeDigits short, if_neg bounds,
    if_neg (Nat.not_lt.mpr short)]
  by_cases all : rest = []
  · subst all
    rw [List.append_nil] at split
    subst split
    simp [few, eq_comm]
  · -- the digits after the fifth are refused
    obtain ⟨c, tail, rfl⟩ := List.exists_cons_of_ne_nil all
    have digit := fractionDigits c (split ▸ List.mem_append_right _ List.mem_cons_self)
    have full : used.length = 5 := by
      rcases stop with full | other
      · exact full
      · have refused := other c rfl
        rw [digit] at refused
        cases refused
    have long : ¬ fraction.length ≤ 5 := by
      rw [split, List.length_append, full, List.length_cons]
      omega
    simp [notSpace c digit, long]

/-- Amounts come back exactly when they are whole coins; every accepted text has the value that it denotes. -/
theorem money_text_iff (n : Int) (str : List Char) :
    (0 ≤ n → n ≤ MAX_MONEY → (parseMoney (formatMoney n false) = some n ↔ COIN ∣ n)) ∧
      ∀ nRet, parseMoney str = some nRet →
        ∃ whole fraction, Denotes (cString str) whole fraction ∧ (nRet : Rat) = decimalValue whole fraction * COIN := by
  refine ⟨fun nonneg upper => ?_, fun nRet run => parseMoney_denotes run⟩
  obtain ⟨quotient, remainder, rfl, below⟩ : ∃ quotient remainder : Nat,
      n = quotient * COIN + remainder ∧ (remainder : Int) < COIN := by
    refine ⟨(n / COIN).toNat, (n % COIN).toNat, ?_, ?_⟩ <;> simp only [COIN] <;> omega
  have coins : quotient < 10 ^ 10 := by
    simp only [MAX_MONEY, COIN] at upper
    omega
  obtain ⟨fraction, nTrim, length, two, digits, value, text⟩ := @formatMoney_eq quotient remainder below
  have short := (Nat.length_toDigits_le_iff (by decide : 1 < 10) (by decide : 0 < 10)).mpr coins
  have wholeDigits : ∀ c ∈ Nat.toDigits 10 quotient, c.isDigit = true :=
    fun c member => Nat.isDigit_of_mem_toDigits (by decide) (by decide) member
  rw [text, parseMoney_digits Nat.toDigits_ne_nil wholeDigits digits short, Nat.ofDigitChars_ten_toDigits]
  have divides : COIN ∣ (quotient * COIN + remainder : Int) ↔ remainder = 0 := by
    simp only [COIN] at below ⊢
    omega
  rw [divides]
  constructor
  · rintro ⟨few, same⟩
    -- the five digits that are read are the first of the eight that were written
    have read : Nat.ofDigitChars 10 fraction 0 * 10 ^ (5 - fraction.length) = remainder := by omega
    have eight : 10 ^ nTrim = 1000 * 10 ^ (5 - fraction.length) := by
      rw [show nTrim = 3 + (5 - fraction.length) by omega, Nat.pow_add]
    rw [eight, Nat.mul_assoc, Nat.mul_comm (10 ^ _), read] at value
    omega
  · rintro rfl
    have coinText := formatMoney_coins quotient
    rw [Nat.cast_zero, add_zero, coinText] at text
    obtain rfl : ['0', '0'] = fraction := by
      have same := List.append_cancel_left text
      exact (List.cons.inj same).2
    have none : Nat.ofDigitChars 10 ['0', '0'] 0 = 0 := by decide
    exact ⟨by decide, by simp [none]⟩

/-- A tenth of a coin is written with eight digits after the point and read with five. -/
theorem money_text_fails : 0 ≤ COIN / 10 ∧ COIN / 10 ≤ MAX_MONEY ∧
    parseMoney (formatMoney (COIN / 10) false) = some 10 ∧
    parseMoney (formatMoney (COIN / 10) false) ≠ some (COIN / 10) := by decide

end BitCrystal
