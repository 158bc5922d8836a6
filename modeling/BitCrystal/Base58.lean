import BitCrystal.BaseText
import BitCrystal.BigNumBytes
import BitCrystal.Data.Positional
import Mathlib.Data.List.GetD

namespace BitCrystal

open Data

/-! # Base58 -/

def pszBase58 : Bytes := ascii "123456789ABCDEFGHJKLMNPQRSTUVWXYZabcdefghijkmnopqrstuvwxyz"

/-- The loop of EncodeBase58: the digits of a number, the least significant one first. -/
def encode58Loop (bn : Int) : Bytes :=
  if 0 < bn then pszBase58.getD (bn.tmod 58).toNat 0 :: encode58Loop (bn.tdiv 58) else []
termination_by bn.toNat
decreasing_by
  rw [Int.tdiv_eq_ediv_of_nonneg (by omega)]
  omega

def encodeBase58 (v : Bytes) : Bytes :=
  -- the extra zero keeps the highest bit from being taken for a sign
  let vchTmp := v.reverse ++ [0]
  let bn := CBigNum.setvch vchTmp
  let str := encode58Loop bn ++ List.replicate (v.takeWhile (· = 0)).length (pszBase58.getD 0 0)
  str.reverse

/-- `isspace` in the C locale. -/
def isspace (c : UInt8) : Bool := c = 0x20 || 0x09 ≤ c && c ≤ 0x0d

/-- `str.c_str()` for a function that reads up to the terminator. -/
def cStr (str : Bytes) : Bytes := str.takeWhile (· ≠ 0)

/-- The loop of DecodeBase58 over the string up to its terminator. -/
def decode58Loop (bn : Int) : Bytes → Option Int
  | [] => some bn
  | c :: p =>
      match pszBase58.idxOf? c with
      | none => if (c :: p).dropWhile isspace = [] then some bn else none
      | some index => decode58Loop (bn * 58 + index) p

def trimSign (vchTmp : Bytes) : Bytes :=
  if 2 ≤ vchTmp.length ∧ vchTmp.getD (vchTmp.length - 1) 0 = 0 ∧ 0x80 ≤ vchTmp.getD (vchTmp.length - 2) 0 then
    vchTmp.dropLast
  else vchTmp

/-- `none` is the answer false, with `vchRet` cleared. -/
def decodeBase58 (str : Bytes) : Option Bytes :=
  let psz := (cStr str).dropWhile isspace
  match decode58Loop 0 psz with
  | none => none
  | some bn =>
      let vchTmp := trimSign (CBigNum.getvch bn)
      let nLeadingZeros := (psz.takeWhile (· = pszBase58.getD 0 0)).length
      some (List.replicate nLeadingZeros 0 ++ vchTmp.reverse)

/-! ## The digits -/

theorem idxOf_digit : ∀ digit < 58, pszBase58.idxOf? (pszBase58.getD digit 0) = some digit := by
  decide

theorem pszBase58_plain : ∀ c ∈ pszBase58, c ≠ 0 ∧ isspace c = false := by
  decide +kernel

theorem digit_mem {digit : Nat} (small : digit < 58) : pszBase58.getD digit 0 ∈ pszBase58 := by
  have inside : digit < pszBase58.length := small
  rw [List.getD_eq_getElem _ _ inside]
  exact List.getElem_mem inside

theorem exists_digit {c : UInt8} {digit : Nat} (found : pszBase58.idxOf? c = some digit) :
    digit < 58 ∧ pszBase58.getD digit 0 = c := by
  obtain ⟨inside, same, -⟩ := List.findIdx?_eq_some_iff_getElem.mp found
  exact ⟨inside, (List.getD_eq_getElem _ _ inside).trans (eq_of_beq same)⟩

theorem digit_eq_zero_iff {digit : Nat} (small : digit < 58) :
    pszBase58.getD digit 0 = pszBase58.getD 0 0 ↔ digit = 0 := by
  refine ⟨fun same => ?_, fun zero => by rw [zero]⟩
  have found := idxOf_digit digit small
  rw [same, idxOf_digit 0 (by decide)] at found
  exact (Option.some.inj found).symm

/-! ## Encoding -/

theorem encode58Loop_eq (n : Nat) : encode58Loop n = (Nat.digits 58 n).map (pszBase58.getD · 0) := by
  induction n using Nat.strongRecOn with
  | ind n ih =>
      rw [encode58Loop]
      rcases Nat.eq_zero_or_pos n with rfl | positive
      · rfl
      · have quotient : (n : Int).tdiv 58 = ((n / 58 : Nat) : Int) := rfl
        have remainder : ((n : Int).tmod 58).toNat = n % 58 := rfl
        rw [if_pos (by omega), quotient, remainder, ih (n / 58) (by omega),
          Nat.digits_def' (by decide) positive, List.map_cons]

theorem setvch_reverse (v : Bytes) : CBigNum.setvch (v.reverse ++ [0]) = spelled 256 (v.map UInt8.toNat) := by
  rw [CBigNum.setvch_append (by decide), spelled, ← List.map_reverse, ofDigits_toNat, ofLittleEndian_append]
  simp [ofLittleEndian]

theorem leadingZeros_bytes (v : Bytes) : leadingZeros (v.map UInt8.toNat) = (v.takeWhile (· = 0)).length := by
  have same : (fun digit => decide (digit = 0)) ∘ UInt8.toNat = fun byte : UInt8 => decide (byte = 0) := by
    funext byte
    exact decide_eq_decide.mpr ⟨fun zero => UInt8.toNat_inj.mp zero, fun zero => by rw [zero]; rfl⟩
  rw [leadingZeros, List.takeWhile_map, List.length_map, same]

theorem encodeBase58_eq (v : Bytes) :
    encodeBase58 v = (rebased 256 58 (v.map UInt8.toNat)).map (pszBase58.getD · 0) := by
  rw [encodeBase58, setvch_reverse, encode58Loop_eq, List.reverse_append, List.reverse_replicate, rebased,
    List.map_append, List.map_replicate, leadingZeros_bytes, List.map_reverse]

/-! ## Decoding -/

theorem decode58Loop_eq {after : Bytes} (spaces : after.dropWhile isspace = [])
    (stop : ∀ c ∈ after.head?, pszBase58.idxOf? c = none) (digits : List Nat) (small : ∀ digit ∈ digits, digit < 58)
    (bn : Nat) : decode58Loop bn (digits.map (pszBase58.getD · 0) ++ after) =
      some ((bn * 58 ^ digits.length + spelled 58 digits : Nat) : Int) := by
  induction digits generalizing bn with
  | nil =>
      rw [List.map_nil, List.nil_append, List.length_nil, spelled_nil]
      cases after with
      | nil => simp [decode58Loop]
      | cons c after => simp [decode58Loop, stop c rfl, spaces]
  | cons digit digits ih =>
      have next := ih (fun later member => small later (List.mem_cons_of_mem digit member)) (bn * 58 + digit)
      have value : spelled 58 (digit :: digits) = digit * 58 ^ digits.length + spelled 58 digits := by
        rw [← List.singleton_append, spelled_append]
        simp [spelled]
      rw [List.map_cons, List.cons_append, decode58Loop, idxOf_digit digit (small digit List.mem_cons_self)]
      push_cast at next ⊢
      rw [next, value, List.length_cons]
      push_cast
      ring_nf

theorem exists_digits {bn result : Int} {p : Bytes} (decoded : decode58Loop bn p = some result) :
    ∃ (digits : List Nat) (after : Bytes), p = digits.map (pszBase58.getD · 0) ++ after ∧ (∀ digit ∈ digits, digit < 58) ∧
      after.dropWhile isspace = [] := by
  induction p generalizing bn with
  | nil => exact ⟨[], [], rfl, fun _ member => absurd member List.not_mem_nil, rfl⟩
  | cons c p ih =>
      rw [decode58Loop] at decoded
      cases found : pszBase58.idxOf? c with
      | none =>
          rw [found] at decoded
          simp only [Option.ite_none_right_eq_some] at decoded
          exact ⟨[], c :: p, rfl, fun _ member => absurd member List.not_mem_nil, decoded.1⟩
      | some digit =>
          rw [found] at decoded
          obtain ⟨digits, after, rfl, small, spaces⟩ := ih decoded
          obtain ⟨inside, same⟩ := exists_digit found
          exact ⟨digit :: digits, after, by rw [List.map_cons, same, List.cons_append],
            List.forall_mem_cons.mpr ⟨inside, small⟩, spaces⟩

theorem trimSign_getvch (n : Nat) : trimSign (CBigNum.getvch n) = (Nat.digits 256 n).map UInt8.ofNat := by
  have positive : ¬((n : Int) < 0) := by omega
  rw [CBigNum.getvch, if_neg positive, Int.natAbs_natCast]
  by_cases zero : n = 0
  · subst zero
    rfl
  · obtain ⟨front, last, nonzero, rfl⟩ := CBigNum.exists_bytes zero
    have bytes : ((front ++ [last]).map UInt8.toNat).map UInt8.ofNat = front ++ [last] := by
      rw [List.map_map]
      exact (List.map_congr_left fun byte _ => UInt8.ofNat_toNat).trans (List.map_id _)
    rw [digits_ofLittleEndian nonzero, bytes, CBigNum.magnitude_eq front nonzero]
    by_cases small : last < 0x80
    · rw [if_pos small, trimSign, if_neg]
      rintro ⟨-, highest, -⟩
      rw [List.length_append, List.length_singleton, Nat.add_sub_cancel, List.getD_append_right _ _ _ _ (le_refl _),
        Nat.sub_self] at highest
      exact nonzero highest
    · rw [if_neg small, trimSign, if_pos, List.dropLast_concat]
      refine ⟨by simp, by simp, ?_⟩
      have second : (front ++ [last] ++ [0]).length - 2 = front.length := by simp
      rw [second, List.append_assoc, List.getD_append_right _ _ _ _ (le_refl _), Nat.sub_self]
      exact UInt8.not_lt.mp small

theorem takeWhile_ones {after : Bytes} (other : ∀ c ∈ after.head?, c ≠ pszBase58.getD 0 0) (digits : List Nat)
    (small : ∀ digit ∈ digits, digit < 58) :
    ((digits.map (pszBase58.getD · 0) ++ after).takeWhile (· = pszBase58.getD 0 0)).length = leadingZeros digits := by
  induction digits with
  | nil =>
      cases after with
      | nil => rfl
      | cons c after =>
          rw [List.map_nil, List.nil_append, List.takeWhile_cons_of_neg (by simpa using other c rfl)]
          rfl
  | cons digit digits ih =>
      have next := ih fun later member => small later (List.mem_cons_of_mem digit member)
      have one := digit_eq_zero_iff (small digit List.mem_cons_self)
      rw [List.map_cons, List.cons_append, leadingZeros]
      by_cases zero : digit = 0
      · rw [leadingZeros] at next
        simp only [List.takeWhile_cons, zero, decide_true, if_true, List.length_cons, next]
      · simp only [List.takeWhile_cons, one, zero, decide_false, Bool.false_eq_true, if_false, List.length_nil]

theorem decodeBase58_eq {str before after : Bytes} {digits : List Nat} (small : ∀ digit ∈ digits, digit < 58)
    (split : cStr str = before ++ digits.map (pszBase58.getD · 0) ++ after)
    (spaces : ∀ c ∈ before ++ after, isspace c = true) :
    decodeBase58 str = some ((rebased 58 256 digits).map UInt8.ofNat) := by
  have leading : ∀ c ∈ before, isspace c = true := fun c member => spaces c (List.mem_append_left after member)
  have trailing : ∀ c ∈ after, isspace c = true := fun c member => spaces c (List.mem_append_right before member)
  obtain ⟨after', psz, onlySpaces⟩ : ∃ after', (cStr str).dropWhile isspace = digits.map (pszBase58.getD · 0) ++ after' ∧
      ∀ c ∈ after', isspace c = true := by
    rw [split, List.append_assoc, List.dropWhile_append_of_pos leading]
    cases digits with
    | nil => exact ⟨[], by simpa using trailing, fun c member => absurd member List.not_mem_nil⟩
    | cons digit digits =>
        have plain := (pszBase58_plain _ (digit_mem (small digit List.mem_cons_self))).2
        refine ⟨after, ?_, trailing⟩
        rw [List.map_cons, List.cons_append, List.dropWhile_cons_of_neg (by rw [plain]; exact Bool.false_ne_true)]
  have outside (c : UInt8) (member : c ∈ after'.head?) : c ∉ pszBase58 := fun digit => by
    have space := onlySpaces c (List.mem_of_mem_head? member)
    rw [(pszBase58_plain c digit).2] at space
    exact Bool.false_ne_true space
  have loop := decode58Loop_eq (List.dropWhile_eq_nil_iff.mpr onlySpaces)
    (fun c member => List.idxOf?_eq_none_iff.mpr (outside c member)) digits small 0
  rw [Nat.zero_mul, Nat.zero_add] at loop
  have ones := takeWhile_ones (fun c member same => outside c member (same ▸ digit_mem (by decide))) digits small
  simp only [decodeBase58, psz]
  rw [show (0 : Int) = ((0 : Nat) : Int) from rfl, loop]
  simp only [ones, trimSign_getvch, rebased, List.map_append, List.map_replicate, List.map_reverse]
  rfl

/-- The strings that are decoded: an encoding of the bytes between spaces, up to the first
terminator. -/
theorem decodeBase58_iff (str v : Bytes) : decodeBase58 str = some v ↔ ∃ before after,
    cStr str = before ++ encodeBase58 v ++ after ∧ ∀ c ∈ before ++ after, isspace c = true := by
  constructor
  · intro decoded
    obtain ⟨bn, loop⟩ : ∃ bn, decode58Loop 0 ((cStr str).dropWhile isspace) = some bn := by
      cases loop : decode58Loop 0 ((cStr str).dropWhile isspace) with
      | none => simp [decodeBase58, loop] at decoded
      | some bn => exact ⟨bn, rfl⟩
    obtain ⟨digits, after, psz, small, spaces⟩ := exists_digits loop
    have split : cStr str = (cStr str).takeWhile isspace ++ digits.map (pszBase58.getD · 0) ++ after := by
      rw [List.append_assoc, ← psz, List.takeWhile_append_dropWhile]
    have each : ∀ c ∈ (cStr str).takeWhile isspace ++ after, isspace c = true := by
      intro c member
      rcases List.mem_append.mp member with leading | trailing
      · exact List.mem_takeWhile_imp leading
      · exact List.dropWhile_eq_nil_iff.mp spaces c trailing
    have bytes := decodeBase58_eq small split each
    rw [decoded, Option.some.injEq] at bytes
    refine ⟨_, after, ?_, each⟩
    rw [bytes, encodeBase58_eq, map_toNat_ofNat (rebased_small (by decide) digits),
      rebased_rebased 256 (by decide) small, ← split]
  · rintro ⟨before, after, split, spaces⟩
    rw [encodeBase58_eq] at split
    rw [decodeBase58_eq (rebased_small (by decide) _) split spaces, rebased_rebased 58 (by decide) (toNat_small v),
      map_ofNat_toNat]

theorem cStr_eq {str : Bytes} (each : ∀ c ∈ str, c ∈ pszBase58) : cStr str = str :=
  List.takeWhile_eq_self_iff.mpr fun c member => decide_eq_true (pszBase58_plain c (each c member)).1

theorem encodeBase58_mem (v : Bytes) : ∀ c ∈ encodeBase58 v, c ∈ pszBase58 := by
  intro c member
  rw [encodeBase58_eq] at member
  obtain ⟨digit, inside, rfl⟩ := List.mem_map.mp member
  exact digit_mem (rebased_small (by decide) _ digit inside)

theorem decodeBase58_encodeBase58 (v : Bytes) : decodeBase58 (encodeBase58 v) = some v := by
  refine (decodeBase58_iff _ v).mpr ⟨[], [], ?_, fun c member => absurd member List.not_mem_nil⟩
  rw [cStr_eq (encodeBase58_mem v), List.nil_append, List.append_nil]

theorem exists_decodeBase58 {s : Bytes} (each : ∀ c ∈ s, c ∈ pszBase58) :
    ∃ v, decodeBase58 s = some v ∧ encodeBase58 v = s := by
  obtain ⟨digits, small, rfl⟩ : ∃ digits : List Nat, (∀ digit ∈ digits, digit < 58) ∧
      digits.map (pszBase58.getD · 0) = s := by
    refine ⟨s.map (pszBase58.idxOf ·), fun digit member => ?_, ?_⟩
    · obtain ⟨c, inside, rfl⟩ := List.mem_map.mp member
      exact List.idxOf_lt_length_of_mem (each c inside)
    · rw [List.map_map]
      refine (List.map_congr_left fun c inside => ?_).trans (List.map_id _)
      have found := List.idxOf_lt_length_of_mem (each c inside)
      exact (List.getD_eq_getElem _ _ found).trans (List.getElem_idxOf found)
  have split : cStr (digits.map (pszBase58.getD · 0)) = [] ++ digits.map (pszBase58.getD · 0) ++ [] := by
    rw [cStr_eq each, List.nil_append, List.append_nil]
  refine ⟨_, decodeBase58_eq small split fun c member => absurd member List.not_mem_nil, ?_⟩
  rw [encodeBase58_eq, map_toNat_ofNat (rebased_small (by decide) digits), rebased_rebased 256 (by decide) small]

end BitCrystal
