import BitCrystal.BaseCodecs
import Mathlib.Data.List.GetD

namespace BitCrystal

open Data

/-! # Round trips of Base64 and Base32 -/

/-- The text is over, or goes on with a character that the table does not have. -/
def Ends (table : List Int) (rest : Bytes) : Prop := ∀ c ∈ rest.head?, lookUp table c = -1

/-- The table gives `digits` for `chars`. -/
def Spells (table : List Int) (chars : Bytes) (digits : List Nat) : Prop :=
  List.Forall₂ (fun c digit => lookUp table c = (digit : Nat)) chars digits

theorem decodeLoop_eq {table : List Int} {chars rest : Bytes} {digits : List Nat} (spells : Spells table chars digits)
    (ends : Ends table rest) (step : DecodeState → Nat → DecodeState) (s : DecodeState) :
    decodeLoop table step s (chars ++ rest) = (digits.foldl step s, rest) := by
  induction spells generalizing s with
  | nil =>
      cases rest with
      | nil => rfl
      | cons c rest =>
          have stop : lookUp table c = -1 := ends c rfl
          simp only [List.nil_append, decodeLoop, stop, if_true, List.foldl_nil]
  | @cons c digit chars digits found _ ih =>
      have inside : ¬ lookUp table c = -1 := by
        rw [found]
        omega
      rw [List.cons_append, decodeLoop, if_neg inside, found, Int.toNat_natCast, ih, List.foldl_cons]

theorem paddingFails_iff {table : List Int} (terminator : lookUp table 0 = -1) (count : Nat) (p : Bytes) :
    paddingFails table count p = false ↔ ∃ after, p = List.replicate count padChar ++ after ∧ Ends table after := by
  have nonzero : (0 : UInt8) ≠ padChar := by decide
  rw [paddingFails, Bool.or_eq_false_iff, List.any_eq_false]
  simp only [List.mem_range, bne_iff_ne, ne_eq, Decidable.not_not, bne_eq_false_iff_eq]
  constructor
  · rintro ⟨pads, next⟩
    have long : count ≤ p.length := by
      rcases count with - | last
      · exact Nat.zero_le _
      · by_contra short
        have missing := pads last (Nat.lt_succ_self last)
        rw [List.getD_eq_default _ _ (by omega)] at missing
        exact nonzero missing
    refine ⟨p.drop count, ?_, ?_⟩
    · have front : p.take count = List.replicate count padChar := by
        refine List.eq_replicate_iff.mpr ⟨List.length_take_of_le long, fun c member => ?_⟩
        obtain ⟨i, inside, rfl⟩ := List.getElem_of_mem member
        rw [List.length_take_of_le long] at inside
        rw [List.getElem_take, ← List.getD_eq_getElem _ 0]
        exact pads i inside
      rw [← front, List.take_append_drop]
    · intro c member
      rw [List.head?_drop] at member
      rwa [List.getD_eq_getElem?_getD, Option.mem_def.mp member] at next
  · rintro ⟨after, rfl, ends⟩
    constructor
    · intro i inside
      rw [List.getD_append _ _ _ _ (by rwa [List.length_replicate]), List.getD_eq_getElem _ _ (by rwa [List.length_replicate]),
        List.getElem_replicate]
    · rw [List.getD_append_right _ _ _ _ (by rw [List.length_replicate]), List.length_replicate, Nat.sub_self]
      cases after with
      | nil => exact terminator
      | cons c after => exact ends c rfl

/-- A text encoding by digits of `bits` bits. The decoder reads a character as the encoder's `folded` one. -/
structure BaseCodec where
  bits : Nat
  alphabet : Bytes
  table : List Int
  folded : UInt8 → UInt8
  padding : Nat → Nat
  encode : Bytes → Bytes
  decode : Bytes → Bytes × Bool
  positive : 0 < bits
  narrow : bits ≤ 8
  alphabet_length : alphabet.length = 2 ^ bits
  lookUp_alphabet : ∀ digit < 2 ^ bits, lookUp table (alphabet.getD digit 0) = (digit : Nat)
  lookUp_folded : ∀ c, lookUp table (folded c) = lookUp table c
  alphabet_lookUp : ∀ c, lookUp table c ≠ -1 →
    ∃ digit < 2 ^ bits, lookUp table c = (digit : Nat) ∧ alphabet.getD digit 0 = folded c
  lookUp_padChar : lookUp table padChar = -1
  lookUp_terminator : lookUp table 0 = -1
  folded_padChar : ∀ c, folded c = padChar ↔ c = padChar
  encodes : ∀ pch, ∃ digits spare, Padded 8 bits (pch.map UInt8.toNat) digits spare ∧
    encode pch = digits.map (alphabet.getD · 0) ++ List.replicate (padding spare) padChar
  decodes : ∀ chars digits rest, Spells table chars digits → (∀ digit ∈ digits, digit < 2 ^ bits) → Ends table rest →
    ∃ pending left, Packs bits 8 digits ((decode (chars ++ rest)).1.map UInt8.toNat) pending left ∧ pending < 8 ∧
      ((decode (chars ++ rest)).2 = false ↔
        pending < bits ∧ left = 0 ∧ paddingFails table (padding pending) rest = false)

namespace BaseCodec

variable (codec : BaseCodec)

theorem mem_alphabet {digit : Nat} (small : digit < 2 ^ codec.bits) : codec.alphabet.getD digit 0 ∈ codec.alphabet := by
  have inside : digit < codec.alphabet.length := by rwa [codec.alphabet_length]
  rw [List.getD_eq_getElem _ _ inside]
  exact List.getElem_mem inside

theorem lookUp_cases (c : UInt8) : lookUp codec.table c = -1 ∧ codec.folded c ∉ codec.alphabet ∨
    ∃ digit < 2 ^ codec.bits, lookUp codec.table c = (digit : Nat) ∧ codec.alphabet.getD digit 0 = codec.folded c := by
  by_cases missing : lookUp codec.table c = -1
  · refine .inl ⟨missing, fun member => ?_⟩
    obtain ⟨digit, inside, same⟩ := List.getElem_of_mem member
    have found := codec.lookUp_alphabet digit (by rwa [← codec.alphabet_length])
    rw [List.getD_eq_getElem _ _ inside, same, codec.lookUp_folded] at found
    omega
  · exact .inr (codec.alphabet_lookUp c missing)

theorem ends_iff (rest : Bytes) : Ends codec.table rest ↔ ∀ c ∈ rest.head?, codec.folded c ∉ codec.alphabet := by
  refine forall₂_congr fun c _ => ?_
  rcases codec.lookUp_cases c with ⟨missing, outside⟩ | ⟨digit, small, found, folds⟩
  · exact iff_of_true missing outside
  · refine iff_of_false (by omega) (not_not.mpr ?_)
    rw [← folds]
    exact codec.mem_alphabet small

theorem exists_spells (p : Bytes) : ∃ chars digits rest, p = chars ++ rest ∧ Spells codec.table chars digits ∧
    (∀ digit ∈ digits, digit < 2 ^ codec.bits) ∧ Ends codec.table rest := by
  induction p with
  | nil => exact ⟨[], [], [], rfl, .nil, fun _ member => absurd member List.not_mem_nil, fun _ member => by cases member⟩
  | cons c p ih =>
      rcases codec.lookUp_cases c with ⟨missing, -⟩ | ⟨digit, small, found, -⟩
      · refine ⟨[], [], c :: p, rfl, .nil, fun _ member => absurd member List.not_mem_nil, fun c' member => ?_⟩
        cases member
        exact missing
      · obtain ⟨chars, digits, rest, rfl, spells, each, ends⟩ := ih
        exact ⟨c :: chars, digit :: digits, rest, rfl, .cons found spells, List.forall_mem_cons.mpr ⟨small, each⟩, ends⟩

theorem spells_iff {chars : Bytes} {digits : List Nat} (each : ∀ digit ∈ digits, digit < 2 ^ codec.bits) :
    Spells codec.table chars digits ↔ chars.map codec.folded = digits.map (codec.alphabet.getD · 0) := by
  constructor
  · intro spells
    induction spells with
    | nil => rfl
    | @cons c digit chars digits found _ ih =>
        rw [List.map_cons, List.map_cons, ih fun later member => each later (List.mem_cons_of_mem digit member)]
        rcases codec.lookUp_cases c with ⟨missing, -⟩ | ⟨digit', -, found', folds⟩
        · omega
        · have same : digit = digit' := by omega
          rw [same, folds]
  · intro same
    induction chars generalizing digits with
    | nil =>
        rw [List.map_nil] at same
        rw [List.map_eq_nil_iff.mp same.symm]
        exact .nil
    | cons c chars ih =>
        cases digits with
        | nil => cases same
        | cons digit digits =>
            rw [List.map_cons, List.map_cons, List.cons.injEq] at same
            obtain ⟨first, others⟩ := same
            have small := each digit List.mem_cons_self
            refine .cons ?_ (ih (fun later member => each later (List.mem_cons_of_mem digit member)) others)
            rcases codec.lookUp_cases c with ⟨-, outside⟩ | ⟨digit', small', found, folds⟩
            · rw [first] at outside
              exact absurd (codec.mem_alphabet small) outside
            · -- both digits are the one that the table gives for their character
              rw [first] at folds
              have forth := codec.lookUp_alphabet digit' small'
              rw [folds, codec.lookUp_alphabet digit small] at forth
              rw [found, forth]

theorem map_folded_replicate_iff {back : Bytes} {count : Nat} :
    back.map codec.folded = List.replicate count padChar ↔ back = List.replicate count padChar := by
  rw [List.eq_replicate_iff, List.eq_replicate_iff, List.length_map, List.forall_mem_map]
  simp only [codec.folded_padChar]

/-- An encoding is read back, whatever the case of its letters and whatever follows that is not
of the alphabet. -/
theorem decode_append {pch text rest : Bytes} (same : text.map codec.folded = codec.encode pch)
    (ends : Ends codec.table rest) : codec.decode (text ++ rest) = (pch, false) := by
  obtain ⟨digits, spare, padded, encoded⟩ := codec.encodes pch
  rw [encoded] at same
  obtain ⟨chars, back, rfl, front, padding⟩ := List.map_eq_append_iff.mp same
  have spells := (codec.spells_iff padded.small).mpr front
  have pads := codec.map_folded_replicate_iff.mp padding
  have stop : Ends codec.table (back ++ rest) := by
    rw [pads]
    cases codec.padding spare with
    | zero => exact ends
    | succ count =>
        intro c member
        cases member
        exact codec.lookUp_padChar
  obtain ⟨pending, left, packs, less, valid⟩ := codec.decodes chars digits (back ++ rest) spells padded.small stop
  have bytes (digit : Nat) (member : digit ∈ pch.map UInt8.toNat) : digit < 2 ^ 8 := by
    obtain ⟨byte, -, rfl⟩ := List.mem_map.mp member
    exact byte.toNat_lt
  obtain ⟨back', nothing, amount⟩ := padded.unpacked packs bytes less codec.narrow
  rw [List.append_assoc]
  refine Prod.ext (List.map_injective_iff.mpr (fun _ _ => UInt8.toNat_inj.mp) back') ?_
  refine valid.mpr ⟨amount ▸ padded.bound, nothing, ?_⟩
  rw [amount]
  exact (paddingFails_iff codec.lookUp_terminator _ _).mpr ⟨rest, by rw [pads], ends⟩

theorem map_folded_encode (pch : Bytes) : (codec.encode pch).map codec.folded = codec.encode pch := by
  obtain ⟨digits, spare, padded, encoded⟩ := codec.encodes pch
  have written : digits.map (codec.folded ∘ (codec.alphabet.getD · 0)) = digits.map (codec.alphabet.getD · 0) := by
    refine List.map_congr_left fun digit member => ?_
    have found := codec.lookUp_alphabet digit (padded.small digit member)
    obtain ⟨digit', -, found', folds⟩ := codec.alphabet_lookUp (codec.alphabet.getD digit 0) (by omega)
    have same : digit' = digit := by omega
    rw [same] at folds
    exact folds.symm
  rw [encoded, List.map_append, List.map_map, written, codec.map_folded_replicate_iff.mpr rfl]

theorem decode_encode (pch : Bytes) : codec.decode (codec.encode pch) = (pch, false) := by
  have read : codec.decode (codec.encode pch ++ []) = (pch, false) :=
    codec.decode_append (codec.map_folded_encode pch) fun c member => by cases member
  rwa [List.append_nil] at read

/-- What the decoder accepts is the encoding of what it returns, up to the case of letters and
up to the first character after it, which is not of the alphabet. -/
theorem decode_valid_iff (p : Bytes) : (codec.decode p).2 = false ↔ ∃ text rest, p = text ++ rest ∧
    text.map codec.folded = codec.encode (codec.decode p).1 ∧ ∀ c ∈ rest.head?, codec.folded c ∉ codec.alphabet := by
  constructor
  · intro accepted
    obtain ⟨chars, digits, rest, rfl, spells, each, ends⟩ := codec.exists_spells p
    obtain ⟨pending, left, packs, less, valid⟩ := codec.decodes chars digits rest spells each ends
    obtain ⟨fits, rfl, padding⟩ := valid.mp accepted
    obtain ⟨after, rfl, over'⟩ := (paddingFails_iff codec.lookUp_terminator _ _).mp padding
    obtain ⟨digits', spare, padded, encoded⟩ := codec.encodes (codec.decode (chars ++ (List.replicate (codec.padding pending) padChar ++ after))).1
    obtain ⟨rfl, rfl⟩ := (Padded.of_unpacked packs fits each).unique padded codec.positive
    refine ⟨chars ++ List.replicate (codec.padding pending) padChar, after, by rw [List.append_assoc], ?_,
      (codec.ends_iff after).mp over'⟩
    rw [encoded, List.map_append, (codec.spells_iff each).mp spells, codec.map_folded_replicate_iff.mpr rfl]
  · rintro ⟨text, rest, same, encoded, ends⟩
    have read := codec.decode_append encoded ((codec.ends_iff rest).mpr ends)
    rw [← same] at read
    rw [read]

end BaseCodec

/-! ## The two codecs -/

theorem Encoded.padded {bits : Nat} {alphabet pch : Bytes} {pendings : List Nat} {s : EncodeState}
    (encoded : Encoded bits alphabet pendings pch s) (positive : 0 < bits) (nothing : pendings.getD 0 0 = 0)
    (fits : s.mode ≠ 0 → 0 < pendings.getD s.mode 0 ∧ pendings.getD s.mode 0 < bits) :
    ∃ digits, Padded 8 bits (pch.map UInt8.toNat) digits (if s.mode = 0 then 0 else bits - pendings.getD s.mode 0) ∧
      (if s.mode ≠ 0 then s.strRet ++ [alphabet.getD s.left 0] else s.strRet) = digits.map (alphabet.getD · 0) := by
  obtain ⟨-, digits, left, packs, text, kept⟩ := encoded
  by_cases start : s.mode = 0
  · rw [start, nothing] at packs
    rw [if_pos start, if_neg (not_not.mpr start)]
    exact ⟨digits, Padded.of_packs packs positive, text⟩
  · obtain ⟨some, less⟩ := fits start
    rw [if_neg start, if_pos start]
    refine ⟨_, Padded.of_pending packs some less, ?_⟩
    rw [text, kept start, List.map_append, List.map_singleton]

theorem encodeBase64_padded (pch : Bytes) : ∃ digits spare, Padded 8 6 (pch.map UInt8.toNat) digits spare ∧
    encodeBase64 pch = digits.map (pbase64.getD · 0) ++ List.replicate (spare / 2) padChar := by
  have encoded := encoded_foldl encode64Step_encoded pch [] _ (encoded_start (by decide) rfl)
  have mode : (pch.foldl encode64Step ⟨0, 0, []⟩).mode < 3 := encoded.1
  rw [List.nil_append] at encoded
  rw [encodeBase64]
  generalize pch.foldl encode64Step ⟨0, 0, []⟩ = s at encoded mode ⊢
  obtain ⟨mode', left, strRet⟩ := s
  obtain ⟨digits, padded, text⟩ := encoded.padded (by decide) rfl fun nonzero => by
    simp only at mode nonzero ⊢
    interval_cases mode' <;> simp at nonzero ⊢
  refine ⟨digits, _, padded, ?_⟩
  simp only at mode text ⊢
  rw [← text]
  interval_cases mode'
  · exact (List.append_nil _).symm
  · exact List.append_assoc _ _ _
  · rfl

theorem encodeBase32_padded (pch : Bytes) : ∃ digits spare, Padded 8 5 (pch.map UInt8.toNat) digits spare ∧
    encodeBase32 pch = digits.map (pbase32.getD · 0) ++ List.replicate ([0, 3, 6, 1, 4].getD spare 0) padChar := by
  have encoded := encoded_foldl encode32Step_encoded pch [] _ (encoded_start (by decide) rfl)
  have mode : (pch.foldl encode32Step ⟨0, 0, []⟩).mode < 5 := encoded.1
  rw [List.nil_append] at encoded
  rw [encodeBase32]
  generalize pch.foldl encode32Step ⟨0, 0, []⟩ = s at encoded mode ⊢
  obtain ⟨mode', left, strRet⟩ := s
  obtain ⟨digits, padded, text⟩ := encoded.padded (by decide) rfl fun nonzero => by
    simp only at mode nonzero ⊢
    interval_cases mode' <;> simp at nonzero ⊢
  refine ⟨digits, _, padded, ?_⟩
  simp only at mode text ⊢
  rw [← text]
  interval_cases mode'
  · exact (List.append_nil _).symm
  all_goals rfl

theorem paddingFails_ends {table : List Int} {rest : Bytes} (terminator : lookUp table 0 = -1) (ends : Ends table rest) :
    paddingFails table 0 rest = false :=
  (paddingFails_iff terminator 0 rest).mpr ⟨rest, rfl, ends⟩

theorem decodeBase64_packs (chars : Bytes) (digits : List Nat) (rest : Bytes) (spells : Spells decode64Table chars digits)
    (each : ∀ digit ∈ digits, digit < 2 ^ 6) (ends : Ends decode64Table rest) :
    ∃ pending left, Packs 6 8 digits ((decodeBase64 (chars ++ rest)).1.map UInt8.toNat) pending left ∧ pending < 8 ∧
      ((decodeBase64 (chars ++ rest)).2 = false ↔
        pending < 6 ∧ left = 0 ∧ paddingFails decode64Table (pending / 2) rest = false) := by
  have start : Decoded 6 [0, 6, 4, 2] [] ⟨[], 0, 0⟩ := ⟨by decide, 0, Packs.empty, fun _ => rfl⟩
  have decoded := decoded_foldl decode64Step_decoded digits each [] _ start
  rw [List.nil_append] at decoded
  rw [decodeBase64, decodeLoop_eq spells ends]
  generalize digits.foldl decode64Step ⟨[], 0, 0⟩ = s at decoded ⊢
  obtain ⟨mode, left, packs, kept⟩ := decoded
  obtain ⟨vchRet, mode', left₀⟩ := s
  have mode : mode' < 4 := mode
  refine ⟨_, left, packs, ?_⟩
  have bound := packs.bound
  simp only at kept bound ⊢
  interval_cases mode'
  · have nothing : left = 0 := Nat.lt_one_iff.mp bound
    simp [decode64Invalid, nothing, paddingFails_ends rfl ends]
  · simp [decode64Invalid]
  · simp [decode64Invalid, kept]
  · simp [decode64Invalid, kept]

theorem decodeBase32_packs (chars : Bytes) (digits : List Nat) (rest : Bytes) (spells : Spells decode32Table chars digits)
    (each : ∀ digit ∈ digits, digit < 2 ^ 5) (ends : Ends decode32Table rest) :
    ∃ pending left, Packs 5 8 digits ((decodeBase32 (chars ++ rest)).1.map UInt8.toNat) pending left ∧ pending < 8 ∧
      ((decodeBase32 (chars ++ rest)).2 = false ↔
        pending < 5 ∧ left = 0 ∧ paddingFails decode32Table ([0, 3, 6, 1, 4].getD pending 0) rest = false) := by
  have start : Decoded 5 [0, 5, 2, 7, 4, 1, 6, 3] [] ⟨[], 0, 0⟩ := ⟨by decide, 0, Packs.empty, fun _ => rfl⟩
  have decoded := decoded_foldl decode32Step_decoded digits each [] _ start
  rw [List.nil_append] at decoded
  rw [decodeBase32, decodeLoop_eq spells ends]
  generalize digits.foldl decode32Step ⟨[], 0, 0⟩ = s at decoded ⊢
  obtain ⟨mode, left, packs, kept⟩ := decoded
  obtain ⟨vchRet, mode', left₀⟩ := s
  have mode : mode' < 8 := mode
  refine ⟨_, left, packs, ?_⟩
  have bound := packs.bound
  simp only at kept bound ⊢
  interval_cases mode'
  · have nothing : left = 0 := Nat.lt_one_iff.mp bound
    simp [decode32Invalid, nothing, paddingFails_ends rfl ends]
  all_goals simp [decode32Invalid, kept]

/-- The letter case that EncodeBase32 writes. -/
def toLower (c : UInt8) : UInt8 := if 0x41 ≤ c ∧ c ≤ 0x5a then c + 0x20 else c

/-- A table has nothing for a character, or the digit of its folded form. -/
def Fits (bits : Nat) (alphabet : Bytes) (folded : UInt8 → UInt8) (value : Int) (c : UInt8) : Prop :=
  value = -1 ∨ 0 ≤ value ∧ value < 2 ^ bits ∧ alphabet.getD value.toNat 0 = folded c

instance {bits : Nat} {alphabet : Bytes} {folded : UInt8 → UInt8} {value : Int} :
    DecidablePred (Fits bits alphabet folded value) := fun _ => inferInstanceAs (Decidable (_ ∨ _))

theorem Fits.exists_digit {bits : Nat} {alphabet : Bytes} {table : List Int} {folded : UInt8 → UInt8} {c : UInt8}
    (fits : Fits bits alphabet folded (lookUp table c) c) (found : lookUp table c ≠ -1) :
    ∃ digit < 2 ^ bits, lookUp table c = (digit : Nat) ∧ alphabet.getD digit 0 = folded c := by
  obtain ⟨positive, small, same⟩ := fits.resolve_left found
  refine ⟨(lookUp table c).toNat, ?_, (Int.toNat_of_nonneg positive).symm, same⟩
  exact (Int.toNat_lt positive).mpr (by exact_mod_cast small)

theorem forall_lookUp {table : List Int} {p : Int → UInt8 → Prop} (whole : table.length = 256)
    (each : ∀ entry ∈ table.zipIdx, p entry.1 (UInt8.ofNat entry.2)) (c : UInt8) : p (lookUp table c) c := by
  have inside : c.toNat < table.length := whole ▸ c.toNat_lt
  have entry : (lookUp table c, c.toNat) ∈ table.zipIdx := by
    rw [List.mk_mem_zipIdx_iff_getElem?, lookUp, List.getD_eq_getElem _ _ inside]
    exact List.getElem?_eq_getElem inside
  have value := each _ entry
  rwa [UInt8.ofNat_toNat] at value

theorem base64_fits (c : UInt8) : Fits 6 pbase64 id (lookUp decode64Table c) c :=
  forall_lookUp (by decide +kernel) (by decide +kernel) c

theorem base32_fits (c : UInt8) : Fits 5 pbase32 toLower (lookUp decode32Table c) c :=
  forall_lookUp (by decide +kernel) (by decide +kernel) c

theorem upperCase : ∀ c : UInt8, 0x41 ≤ c ∧ c ≤ 0x5a →
    lookUp decode32Table (c + 0x20) = lookUp decode32Table c ∧ c + 0x20 ≠ padChar ∧ c ≠ padChar :=
  forall_byte (by decide +kernel)

theorem lookUp_toLower (c : UInt8) : lookUp decode32Table (toLower c) = lookUp decode32Table c := by
  unfold toLower
  split
  · exact (upperCase c ‹_›).1
  · rfl

theorem toLower_padChar (c : UInt8) : toLower c = padChar ↔ c = padChar := by
  unfold toLower
  split
  · exact iff_of_false (upperCase c ‹_›).2.1 (upperCase c ‹_›).2.2
  · rfl

def base64 : BaseCodec where
  bits := 6
  alphabet := pbase64
  table := decode64Table
  folded := id
  padding := (· / 2)
  encode := encodeBase64
  decode := decodeBase64
  positive := by decide
  narrow := by decide
  alphabet_length := by decide
  lookUp_alphabet := by decide
  lookUp_folded _ := rfl
  alphabet_lookUp c := (base64_fits c).exists_digit
  lookUp_padChar := rfl
  lookUp_terminator := rfl
  folded_padChar _ := Iff.rfl
  encodes := encodeBase64_padded
  decodes := decodeBase64_packs

def base32 : BaseCodec where
  bits := 5
  alphabet := pbase32
  table := decode32Table
  folded := toLower
  padding spare := [0, 3, 6, 1, 4].getD spare 0
  encode := encodeBase32
  decode := decodeBase32
  positive := by decide
  narrow := by decide
  alphabet_length := by decide
  lookUp_alphabet := by decide
  lookUp_folded := lookUp_toLower
  alphabet_lookUp c := (base32_fits c).exists_digit
  lookUp_padChar := rfl
  lookUp_terminator := rfl
  folded_padChar := toLower_padChar
  encodes := encodeBase32_padded
  decodes := decodeBase32_packs

/-- Encodings are read back. What is accepted is an encoding of the bytes that are returned, for
Base32 in either letter case, and what follows it, if anything does, starts with a character that
is not of the alphabet. -/
theorem base_round_trips :
    (∀ x, decodeBase64 (encodeBase64 x) = (x, false)) ∧ (∀ x, decodeBase32 (encodeBase32 x) = (x, false)) ∧
      (∀ s, (decodeBase64 s).2 = false ↔
        ∃ rest, s = encodeBase64 (decodeBase64 s).1 ++ rest ∧ ∀ c ∈ rest.head?, c ∉ pbase64) ∧
      ∀ s, (decodeBase32 s).2 = false ↔ ∃ text rest, s = text ++ rest ∧
        text.map toLower = encodeBase32 (decodeBase32 s).1 ∧ ∀ c ∈ rest.head?, toLower c ∉ pbase32 := by
  refine ⟨base64.decode_encode, base32.decode_encode, fun s => ?_, base32.decode_valid_iff⟩
  refine (base64.decode_valid_iff s).trans ⟨?_, ?_⟩
  · rintro ⟨text, rest, split, same, ends⟩
    have whole : text = encodeBase64 (decodeBase64 s).1 := by rwa [base64, List.map_id] at same
    exact ⟨rest, whole ▸ split, ends⟩
  · rintro ⟨rest, split, ends⟩
    exact ⟨_, rest, split, List.map_id _, ends⟩

/-- Text after the encoding, and for Base32 upper-case letters, are accepted. -/
theorem base_round_trips_lenient :
    (0 ∉ ascii "AA==!" ∧ (decodeBase64 (ascii "AA==!")).2 = false ∧
      ascii "AA==!" ≠ encodeBase64 (decodeBase64 (ascii "AA==!")).1) ∧
    0 ∉ ascii "ME======" ∧ (decodeBase32 (ascii "ME======")).2 = false ∧
      ascii "ME======" ≠ encodeBase32 (decodeBase32 (ascii "ME======")).1 := by
  decide

end BitCrystal
