import BitCrystal.Data.Reader

namespace BitCrystal.Data

/-! What a reader that returns a value has consumed of its input. -/

/-- Whenever the reader returns, its value and the bytes it has consumed are related. -/
def Decodes {α : Type} (reader : Reader α) (relation : α → Bytes → Prop) : Prop :=
  ∀ ⦃input : Bytes⦄ ⦃value : α⦄ ⦃rest : Bytes⦄, reader input = some (value, rest) →
    ∃ used, input = used ++ rest ∧ relation value used

theorem Reads.decodes {α : Type} {reader : Reader α} {bytes : Bytes} {value : α} {relation : α → Bytes → Prop}
    (reads : Reads reader bytes value) (decodes : Decodes reader relation) : relation value bytes := by
  obtain ⟨used, same, related⟩ := decodes reads.whole
  rw [List.append_nil] at same
  exact same ▸ related

/-- `used` is no shorter than `canonical`, and longer unless it is the same. -/
structure Shortest (canonical used : Bytes) : Prop where
  length : canonical.length ≤ used.length
  equal : used.length = canonical.length → used = canonical

namespace Shortest

theorem refl (bytes : Bytes) : Shortest bytes bytes := ⟨Nat.le_refl _, fun _ => rfl⟩

theorem of_lt {canonical used : Bytes} (longer : canonical.length < used.length) : Shortest canonical used :=
  ⟨Nat.le_of_lt longer, fun same => absurd same (Nat.ne_of_gt longer)⟩

theorem append {first second firstUsed secondUsed : Bytes} (left : Shortest first firstUsed)
    (right : Shortest second secondUsed) : Shortest (first ++ second) (firstUsed ++ secondUsed) := by
  have leftLength := left.length
  have rightLength := right.length
  refine ⟨by simp only [List.length_append]; omega, fun same => ?_⟩
  simp only [List.length_append] at same
  rw [left.equal (by omega), right.equal (by omega)]

end Shortest

namespace Decodes

variable {α β : Type} {reader : Reader α} {relation weaker : α → Bytes → Prop}

theorem imp (decodes : Decodes reader relation) (follows : ∀ value used, relation value used → weaker value used) :
    Decodes reader weaker := by
  intro input value rest run
  obtain ⟨used, same, related⟩ := decodes run
  exact ⟨used, same, follows value used related⟩

theorem pure {value : α} (related : relation value []) : Decodes (Pure.pure value) relation := by
  intro input other rest run
  cases run
  exact ⟨[], rfl, related⟩

theorem fail : Decodes (Reader.fail : Reader α) relation := by
  intro input value rest run
  contradiction

theorem bind {f : α → Reader β} {whole : β → Bytes → Prop} (decodes : Decodes reader relation)
    (next : ∀ value used, relation value used → Decodes (f value) fun result more => whole result (used ++ more)) :
    Decodes (reader >>= f) whole := by
  intro input result rest run
  have both : (reader input).bind (fun pair => f pair.1 pair.2) = some (result, rest) := run
  rw [Option.bind_eq_some_iff] at both
  obtain ⟨⟨value, middle⟩, first, second⟩ := both
  obtain ⟨used, split, related⟩ := decodes first
  obtain ⟨more, again, final⟩ := next value used related second
  exact ⟨used ++ more, by rw [split, List.append_assoc, ← again], final⟩

theorem byte : Decodes Reader.byte fun first used => used = [first] := by
  intro input first rest run
  cases input with
  | nil => contradiction
  | cons head tail =>
      cases run
      exact ⟨[first], rfl, rfl⟩

theorem take (count : Nat) : Decodes (Reader.take count) fun bytes used => bytes.length = count ∧ used = bytes := by
  intro input bytes rest run
  unfold Reader.take at run
  split at run
  · rename_i enough
    cases run
    exact ⟨input.take count, (List.take_append_drop count input).symm, List.length_take_of_le enough, rfl⟩
  · contradiction

theorem repeated {property : α → Prop} {write : α → Bytes} (count : Nat)
    (each : Decodes reader fun value used => property value ∧ Shortest (write value) used) :
    Decodes (reader.repeated count) fun values used => values.length = count ∧
      (∀ value ∈ values, property value) ∧ Shortest (values.flatMap write) used := by
  induction count with
  | zero => exact .pure ⟨rfl, by simp, .refl []⟩
  | succ count ih =>
      refine each.bind fun first used head => ?_
      refine ih.bind fun values more tail => ?_
      refine .pure ⟨by simp [tail.1], ?_, ?_⟩
      · intro value member
        rcases List.mem_cons.mp member with rfl | member
        · exact head.1
        · exact tail.2.1 value member
      · rw [List.append_nil, List.flatMap_cons]
        exact head.2.append tail.2.2

end Decodes

theorem ofLittleEndian_lt (bytes : Bytes) : ofLittleEndian bytes < 256 ^ bytes.length := by
  induction bytes with
  | nil => simp [ofLittleEndian]
  | cons first rest ih =>
      have small := first.toNat_lt
      rw [List.length_cons, Nat.pow_succ, ofLittleEndian]
      omega

theorem littleEndian_ofLittleEndian (bytes : Bytes) : littleEndian bytes.length (ofLittleEndian bytes) = bytes := by
  induction bytes with
  | nil => rfl
  | cons first rest ih =>
      have small := first.toNat_lt
      have low : UInt8.ofNat (first.toNat + 256 * ofLittleEndian rest) = first := by
        rw [← UInt8.toNat_inj, UInt8.toNat_ofNat']
        omega
      have high : (first.toNat + 256 * ofLittleEndian rest) / 256 = ofLittleEndian rest := by omega
      rw [List.length_cons, littleEndian, ofLittleEndian, low, high, ih]

theorem littleEndian_mod (width value : Nat) : littleEndian width (value % 256 ^ width) = littleEndian width value := by
  have back := littleEndian_ofLittleEndian (littleEndian width value)
  rwa [littleEndian_length, ofLittleEndian_littleEndian] at back

theorem Decodes.littleEndian (width : Nat) :
    Decodes (Reader.littleEndian width) fun value used => value < 256 ^ width ∧
      used = Data.littleEndian width value := by
  refine (Decodes.take width).bind fun bytes used taken => ?_
  obtain ⟨rfl, rfl⟩ := taken
  refine .pure ⟨ofLittleEndian_lt used, ?_⟩
  rw [List.append_nil, littleEndian_ofLittleEndian]

end BitCrystal.Data
