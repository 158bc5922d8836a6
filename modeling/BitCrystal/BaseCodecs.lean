import BitCrystal.BaseText
import Mathlib.Tactic.IntervalCases

namespace BitCrystal

open Data

/-! # What the encoders write and the decoders read -/

theorem or_eq_add {high low : Nat} (width : Nat) (small : low < 2 ^ width) :
    (high * 2 ^ width) ||| low = high * 2 ^ width + low := by
  rw [Nat.mul_comm, Nat.two_pow_add_eq_or_of_lt small]

/-- What holds of the variables of an encoder after the bytes `consumed`. -/
structure Encodes (bits : Nat) (alphabet : Bytes) (consumed : Bytes) (s : EncodeState) (digits : List Nat)
    (pending left : Nat) : Prop where
  packs : Packs 8 bits (consumed.map UInt8.toNat) digits pending left
  text : s.strRet = digits.map (alphabet.getD · 0)
  kept : s.mode ≠ 0 → s.left = left * 2 ^ (bits - pending)

theorem Encodes.read {bits pending left : Nat} {alphabet consumed : Bytes} {s : EncodeState} {digits : List Nat}
    (encodes : Encodes bits alphabet consumed s digits pending left) (byte : UInt8) :
    Packs 8 bits ((consumed ++ [byte]).map UInt8.toNat) digits (pending + 8) (left * 2 ^ 8 + byte.toNat) := by
  rw [List.map_append, List.map_singleton]
  exact encodes.packs.read byte.toNat_lt

/-- `pendings` says how many bits are pending in each mode. -/
def Encoded (bits : Nat) (alphabet : Bytes) (pendings : List Nat) (consumed : Bytes) (s : EncodeState) : Prop :=
  s.mode < pendings.length ∧ ∃ digits left, Encodes bits alphabet consumed s digits (pendings.getD s.mode 0) left

theorem encoded_start {bits : Nat} {alphabet : Bytes} {pendings : List Nat} (some : 0 < pendings.length)
    (nothing : pendings.getD 0 0 = 0) : Encoded bits alphabet pendings [] ⟨0, 0, []⟩ := by
  refine ⟨some, [], 0, ?_, rfl, fun nonzero => absurd rfl nonzero⟩
  rw [nothing]
  exact Packs.empty

theorem encoded_foldl {bits : Nat} {alphabet : Bytes} {pendings : List Nat} {step : EncodeState → UInt8 → EncodeState}
    (keeps : ∀ consumed s byte, Encoded bits alphabet pendings consumed s →
      Encoded bits alphabet pendings (consumed ++ [byte]) (step s byte))
    (pch : Bytes) (consumed : Bytes) (s : EncodeState) (encoded : Encoded bits alphabet pendings consumed s) :
    Encoded bits alphabet pendings (consumed ++ pch) (pch.foldl step s) := by
  induction pch generalizing consumed s with
  | nil => rwa [List.append_nil]
  | cons byte pch ih =>
      have next := ih (consumed ++ [byte]) (step s byte) (keeps consumed s byte encoded)
      rwa [List.append_assoc, List.singleton_append] at next

/-- What holds of the variables of a decoder after characters that stand for `digits`. -/
structure Unpacked (bits : Nat) (digits : List Nat) (s : DecodeState) (pending left : Nat) : Prop where
  packs : Packs bits 8 digits (s.vchRet.map UInt8.toNat) pending left
  kept : s.mode ≠ 0 → s.left = left

def Decoded (bits : Nat) (pendings : List Nat) (digits : List Nat) (s : DecodeState) : Prop :=
  s.mode < pendings.length ∧ ∃ left, Unpacked bits digits s (pendings.getD s.mode 0) left

theorem decoded_foldl {bits : Nat} {pendings : List Nat} {step : DecodeState → Nat → DecodeState}
    (keeps : ∀ digits s dec, dec < 2 ^ bits → Decoded bits pendings digits s →
      Decoded bits pendings (digits ++ [dec]) (step s dec))
    (decs : List Nat) (small : ∀ dec ∈ decs, dec < 2 ^ bits) (digits : List Nat) (s : DecodeState)
    (decoded : Decoded bits pendings digits s) :
    Decoded bits pendings (digits ++ decs) (decs.foldl step s) := by
  induction decs generalizing digits s with
  | nil => rwa [List.append_nil]
  | cons dec decs ih =>
      have first := keeps digits s dec (small dec List.mem_cons_self) decoded
      have next := ih (fun later member => small later (List.mem_cons_of_mem dec member)) (digits ++ [dec])
        (step s dec) first
      rwa [List.append_assoc, List.singleton_append] at next

theorem map_push {vchRet : Bytes} {pushed digit : Nat} (same : pushed = digit) (small : digit < 256) :
    (vchRet ++ [UInt8.ofNat pushed]).map UInt8.toNat = vchRet.map UInt8.toNat ++ [digit] := by
  rw [List.map_append, List.map_singleton, UInt8.toNat_ofNat', same, Nat.mod_eq_of_lt small]

/-! ## The steps -/

theorem encode64Step_encoded (consumed : Bytes) (s : EncodeState) (byte : UInt8)
    (encoded : Encoded 6 pbase64 [0, 2, 4] consumed s) :
    Encoded 6 pbase64 [0, 2, 4] (consumed ++ [byte]) (encode64Step s byte) := by
  obtain ⟨mode, digits, left, encodes⟩ := encoded
  have small := byte.toNat_lt
  have bound := encodes.packs.bound
  have kept := encodes.kept
  have read := encodes.read byte
  have text := encodes.text
  obtain ⟨mode', left₀, strRet⟩ := s
  simp only at mode bound kept read text
  have mode : mode' < 3 := mode
  have low3 : byte.toNat &&& 3 = byte.toNat % 4 := Nat.and_two_pow_sub_one_eq_mod byte.toNat 2
  have low15 : byte.toNat &&& 15 = byte.toNat % 16 := Nat.and_two_pow_sub_one_eq_mod byte.toNat 4
  have low63 : byte.toNat &&& 63 = byte.toNat % 64 := Nat.and_two_pow_sub_one_eq_mod byte.toNat 6
  interval_cases mode'
  · have bound : left < 2 ^ 0 := bound
    have packs := Packs.write 2 read
    refine ⟨(by decide : 1 < 3), _, _, packs, ?_, fun _ => ?_⟩
    · have digit : byte.toNat >>> 2 = (left * 2 ^ 8 + byte.toNat) / 2 ^ 2 := by
        rw [Nat.shiftRight_eq_div_pow]
        omega
      simp only [encode64Step, text, digit, List.map_append, List.map_singleton]
    · show (byte.toNat &&& 3) <<< 4 = (left * 2 ^ 8 + byte.toNat) % 2 ^ 2 * 2 ^ 4
      rw [low3, Nat.shiftLeft_eq]
      omega
  · have bound : left < 2 ^ 2 := bound
    have kept : left₀ = left * 2 ^ 4 := kept (by decide)
    have packs := Packs.write 4 read
    refine ⟨(by decide : 2 < 3), _, _, packs, ?_, fun _ => ?_⟩
    · have digit : left₀ ||| (byte.toNat >>> 4) = (left * 2 ^ 8 + byte.toNat) / 2 ^ 4 := by
        rw [kept, Nat.shiftRight_eq_div_pow, or_eq_add _ (by omega)]
        omega
      simp only [encode64Step, text, digit, List.map_append, List.map_singleton]
    · show (byte.toNat &&& 15) <<< 2 = (left * 2 ^ 8 + byte.toNat) % 2 ^ 4 * 2 ^ 2
      rw [low15, Nat.shiftLeft_eq]
      omega
  · have bound : left < 2 ^ 4 := bound
    have kept : left₀ = left * 2 ^ 2 := kept (by decide)
    have packs := Packs.write 0 (Packs.write 6 read)
    refine ⟨(by decide : 0 < 3), _, _, packs, ?_, fun nonzero => absurd rfl nonzero⟩
    have first : left₀ ||| (byte.toNat >>> 6) = (left * 2 ^ 8 + byte.toNat) / 2 ^ 6 := by
      rw [kept, Nat.shiftRight_eq_div_pow, or_eq_add _ (by omega)]
      omega
    have second : byte.toNat &&& 63 = (left * 2 ^ 8 + byte.toNat) % 2 ^ 6 / 2 ^ 0 := by
      rw [low63]
      omega
    simp only [encode64Step, text, first, second, List.map_append, List.map_singleton]

theorem encode32Step_encoded (consumed : Bytes) (s : EncodeState) (byte : UInt8)
    (encoded : Encoded 5 pbase32 [0, 3, 1, 4, 2] consumed s) :
    Encoded 5 pbase32 [0, 3, 1, 4, 2] (consumed ++ [byte]) (encode32Step s byte) := by
  obtain ⟨mode, digits, left, encodes⟩ := encoded
  have small := byte.toNat_lt
  have bound := encodes.packs.bound
  have kept := encodes.kept
  have read := encodes.read byte
  have text := encodes.text
  obtain ⟨mode', left₀, strRet⟩ := s
  simp only at mode bound kept read text
  have mode : mode' < 5 := mode
  have low1 : byte.toNat &&& 1 = byte.toNat % 2 := Nat.and_two_pow_sub_one_eq_mod byte.toNat 1
  have low3 : byte.toNat &&& 3 = byte.toNat % 4 := Nat.and_two_pow_sub_one_eq_mod byte.toNat 2
  have low7 : byte.toNat &&& 7 = byte.toNat % 8 := Nat.and_two_pow_sub_one_eq_mod byte.toNat 3
  have low15 : byte.toNat &&& 15 = byte.toNat % 16 := Nat.and_two_pow_sub_one_eq_mod byte.toNat 4
  have low31 (n : Nat) : n &&& 31 = n % 32 := Nat.and_two_pow_sub_one_eq_mod n 5
  interval_cases mode'
  · have bound : left < 2 ^ 0 := bound
    have packs := Packs.write 3 read
    refine ⟨(by decide : 1 < 5), _, _, packs, ?_, fun _ => ?_⟩
    · have digit : byte.toNat >>> 3 = (left * 2 ^ 8 + byte.toNat) / 2 ^ 3 := by
        rw [Nat.shiftRight_eq_div_pow]
        omega
      simp only [encode32Step, text, digit, List.map_append, List.map_singleton]
    · show (byte.toNat &&& 7) <<< 2 = (left * 2 ^ 8 + byte.toNat) % 2 ^ 3 * 2 ^ 2
      rw [low7, Nat.shiftLeft_eq]
      omega
  · have bound : left < 2 ^ 3 := bound
    have kept : left₀ = left * 2 ^ 2 := kept (by decide)
    have packs := Packs.write 1 (Packs.write 6 read)
    refine ⟨(by decide : 2 < 5), _, _, packs, ?_, fun _ => ?_⟩
    · have first : left₀ ||| (byte.toNat >>> 6) = (left * 2 ^ 8 + byte.toNat) / 2 ^ 6 := by
        rw [kept, Nat.shiftRight_eq_div_pow, or_eq_add _ (by omega)]
        omega
      have second : (byte.toNat >>> 1) &&& 31 = (left * 2 ^ 8 + byte.toNat) % 2 ^ 6 / 2 ^ 1 := by
        rw [low31, Nat.shiftRight_eq_div_pow]
        omega
      simp only [encode32Step, text, first, second, List.map_append, List.map_singleton]
    · show (byte.toNat &&& 1) <<< 4 = (left * 2 ^ 8 + byte.toNat) % 2 ^ 6 % 2 ^ 1 * 2 ^ 4
      rw [low1, Nat.shiftLeft_eq]
      omega
  · have bound : left < 2 ^ 1 := bound
    have kept : left₀ = left * 2 ^ 4 := kept (by decide)
    have packs := Packs.write 4 read
    refine ⟨(by decide : 3 < 5), _, _, packs, ?_, fun _ => ?_⟩
    · have digit : left₀ ||| (byte.toNat >>> 4) = (left * 2 ^ 8 + byte.toNat) / 2 ^ 4 := by
        rw [kept, Nat.shiftRight_eq_div_pow, or_eq_add _ (by omega)]
        omega
      simp only [encode32Step, text, digit, List.map_append, List.map_singleton]
    · show (byte.toNat &&& 15) <<< 1 = (left * 2 ^ 8 + byte.toNat) % 2 ^ 4 * 2 ^ 1
      rw [low15, Nat.shiftLeft_eq]
      omega
  · have bound : left < 2 ^ 4 := bound
    have kept : left₀ = left * 2 ^ 1 := kept (by decide)
    have packs := Packs.write 2 (Packs.write 7 read)
    refine ⟨(by decide : 4 < 5), _, _, packs, ?_, fun _ => ?_⟩
    · have first : left₀ ||| (byte.toNat >>> 7) = (left * 2 ^ 8 + byte.toNat) / 2 ^ 7 := by
        rw [kept, Nat.shiftRight_eq_div_pow, or_eq_add _ (by omega)]
        omega
      have second : (byte.toNat >>> 2) &&& 31 = (left * 2 ^ 8 + byte.toNat) % 2 ^ 7 / 2 ^ 2 := by
        rw [low31, Nat.shiftRight_eq_div_pow]
        omega
      simp only [encode32Step, text, first, second, List.map_append, List.map_singleton]
    · show (byte.toNat &&& 3) <<< 3 = (left * 2 ^ 8 + byte.toNat) % 2 ^ 7 % 2 ^ 2 * 2 ^ 3
      rw [low3, Nat.shiftLeft_eq]
      omega
  · have bound : left < 2 ^ 2 := bound
    have kept : left₀ = left * 2 ^ 3 := kept (by decide)
    have packs := Packs.write 0 (Packs.write 5 read)
    refine ⟨(by decide : 0 < 5), _, _, packs, ?_, fun nonzero => absurd rfl nonzero⟩
    have first : left₀ ||| (byte.toNat >>> 5) = (left * 2 ^ 8 + byte.toNat) / 2 ^ 5 := by
      rw [kept, Nat.shiftRight_eq_div_pow, or_eq_add _ (by omega)]
      omega
    have second : byte.toNat &&& 31 = (left * 2 ^ 8 + byte.toNat) % 2 ^ 5 / 2 ^ 0 := by
      rw [low31]
      omega
    simp only [encode32Step, text, first, second, List.map_append, List.map_singleton]

theorem decode64Step_decoded (digits : List Nat) (s : DecodeState) (dec : Nat) (small : dec < 2 ^ 6)
    (decoded : Decoded 6 [0, 6, 4, 2] digits s) :
    Decoded 6 [0, 6, 4, 2] (digits ++ [dec]) (decode64Step s dec) := by
  obtain ⟨mode, left, decodes⟩ := decoded
  have bound := decodes.packs.bound
  have kept := decodes.kept
  have read := decodes.packs.read small
  obtain ⟨vchRet, mode', left₀⟩ := s
  simp only at mode bound kept read
  have mode : mode' < 4 := mode
  have low3 : dec &&& 3 = dec % 4 := Nat.and_two_pow_sub_one_eq_mod dec 2
  have low15 : dec &&& 15 = dec % 16 := Nat.and_two_pow_sub_one_eq_mod dec 4
  interval_cases mode'
  · have bound : left < 2 ^ 0 := bound
    refine ⟨(by decide : 1 < 4), _, read, fun _ => ?_⟩
    simp only [decode64Step]
    omega
  · have bound : left < 2 ^ 6 := bound
    have kept : left₀ = left := kept (by decide)
    have packs := Packs.write 4 read
    have pushed : (left₀ <<< 2) ||| (dec >>> 4) = (left * 2 ^ 6 + dec) / 2 ^ 4 := by
      rw [kept, Nat.shiftLeft_eq, Nat.shiftRight_eq_div_pow, or_eq_add _ (by omega)]
      omega
    rw [← map_push pushed (by omega)] at packs
    refine ⟨(by decide : 2 < 4), _, packs, fun _ => ?_⟩
    simp only [decode64Step, low15]
    omega
  · have bound : left < 2 ^ 4 := bound
    have kept : left₀ = left := kept (by decide)
    have packs := Packs.write 2 read
    have pushed : (left₀ <<< 4) ||| (dec >>> 2) = (left * 2 ^ 6 + dec) / 2 ^ 2 := by
      rw [kept, Nat.shiftLeft_eq, Nat.shiftRight_eq_div_pow, or_eq_add _ (by omega)]
      omega
    rw [← map_push pushed (by omega)] at packs
    refine ⟨(by decide : 3 < 4), _, packs, fun _ => ?_⟩
    simp only [decode64Step, low3]
    omega
  · have bound : left < 2 ^ 2 := bound
    have kept : left₀ = left := kept (by decide)
    have packs := Packs.write 0 read
    have pushed : (left₀ <<< 6) ||| dec = (left * 2 ^ 6 + dec) / 2 ^ 0 := by
      rw [kept, Nat.shiftLeft_eq, or_eq_add _ (by omega)]
      omega
    rw [← map_push pushed (by omega)] at packs
    exact ⟨(by decide : 0 < 4), _, packs, fun nonzero => absurd rfl nonzero⟩

theorem decode32Step_decoded (digits : List Nat) (s : DecodeState) (dec : Nat) (small : dec < 2 ^ 5)
    (decoded : Decoded 5 [0, 5, 2, 7, 4, 1, 6, 3] digits s) :
    Decoded 5 [0, 5, 2, 7, 4, 1, 6, 3] (digits ++ [dec]) (decode32Step s dec) := by
  obtain ⟨mode, left, decodes⟩ := decoded
  have bound := decodes.packs.bound
  have kept := decodes.kept
  have read := decodes.packs.read small
  obtain ⟨vchRet, mode', left₀⟩ := s
  simp only at mode bound kept read
  have mode : mode' < 8 := mode
  have low1 : dec &&& 1 = dec % 2 := Nat.and_two_pow_sub_one_eq_mod dec 1
  have low3 : dec &&& 3 = dec % 4 := Nat.and_two_pow_sub_one_eq_mod dec 2
  have low7 : dec &&& 7 = dec % 8 := Nat.and_two_pow_sub_one_eq_mod dec 3
  have low15 : dec &&& 15 = dec % 16 := Nat.and_two_pow_sub_one_eq_mod dec 4
  interval_cases mode'
  · have bound : left < 2 ^ 0 := bound
    refine ⟨(by decide : 1 < 8), _, read, fun _ => ?_⟩
    simp only [decode32Step]
    omega
  · have bound : left < 2 ^ 5 := bound
    have kept : left₀ = left := kept (by decide)
    have packs := Packs.write 2 read
    have pushed : (left₀ <<< 3) ||| (dec >>> 2) = (left * 2 ^ 5 + dec) / 2 ^ 2 := by
      rw [kept, Nat.shiftLeft_eq, Nat.shiftRight_eq_div_pow, or_eq_add _ (by omega)]
      omega
    rw [← map_push pushed (by omega)] at packs
    refine ⟨(by decide : 2 < 8), _, packs, fun _ => ?_⟩
    simp only [decode32Step, low3]
    omega
  · have bound : left < 2 ^ 2 := bound
    have kept : left₀ = left := kept (by decide)
    refine ⟨(by decide : 3 < 8), _, read, fun _ => ?_⟩
    simp only [decode32Step]
    rw [kept, Nat.shiftLeft_eq, or_eq_add _ small]
  · have bound : left < 2 ^ 7 := bound
    have kept : left₀ = left := kept (by decide)
    have packs := Packs.write 4 read
    have pushed : (left₀ <<< 1) ||| (dec >>> 4) = (left * 2 ^ 5 + dec) / 2 ^ 4 := by
      rw [kept, Nat.shiftLeft_eq, Nat.shiftRight_eq_div_pow, or_eq_add _ (by omega)]
      omega
    rw [← map_push pushed (by omega)] at packs
    refine ⟨(by decide : 4 < 8), _, packs, fun _ => ?_⟩
    simp only [decode32Step, low15]
    omega
  · have bound : left < 2 ^ 4 := bound
    have kept : left₀ = left := kept (by decide)
    have packs := Packs.write 1 read
    have pushed : (left₀ <<< 4) ||| (dec >>> 1) = (left * 2 ^ 5 + dec) / 2 ^ 1 := by
      rw [kept, Nat.shiftLeft_eq, Nat.shiftRight_eq_div_pow, or_eq_add _ (by omega)]
      omega
    rw [← map_push pushed (by omega)] at packs
    refine ⟨(by decide : 5 < 8), _, packs, fun _ => ?_⟩
    simp only [decode32Step, low1]
    omega
  · have bound : left < 2 ^ 1 := bound
    have kept : left₀ = left := kept (by decide)
    refine ⟨(by decide : 6 < 8), _, read, fun _ => ?_⟩
    simp only [decode32Step]
    rw [kept, Nat.shiftLeft_eq, or_eq_add _ small]
  · have bound : left < 2 ^ 6 := bound
    have kept : left₀ = left := kept (by decide)
    have packs := Packs.write 3 read
    have pushed : (left₀ <<< 2) ||| (dec >>> 3) = (left * 2 ^ 5 + dec) / 2 ^ 3 := by
      rw [kept, Nat.shiftLeft_eq, Nat.shiftRight_eq_div_pow, or_eq_add _ (by omega)]
      omega
    rw [← map_push pushed (by omega)] at packs
    refine ⟨(by decide : 7 < 8), _, packs, fun _ => ?_⟩
    simp only [decode32Step, low7]
    omega
  · have bound : left < 2 ^ 3 := bound
    have kept : left₀ = left := kept (by decide)
    have packs := Packs.write 0 read
    have pushed : (left₀ <<< 5) ||| dec = (left * 2 ^ 5 + dec) / 2 ^ 0 := by
      rw [kept, Nat.shiftLeft_eq, or_eq_add _ small]
      omega
    rw [← map_push pushed (by omega)] at packs
    exact ⟨(by decide : 0 < 8), _, packs, fun nonzero => absurd rfl nonzero⟩

end BitCrystal
