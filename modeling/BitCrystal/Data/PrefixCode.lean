import BitCrystal.Data.Reader

namespace BitCrystal.Data

/-! Encodings that can be followed by anything.  Two values of the domain whose
encodings agree on a common stream are equal, and so is what follows them. -/

def PrefixCode {α : Type} (domain : α → Prop) (write : α → Bytes) : Prop :=
  ∀ ⦃a b : α⦄ ⦃r s : Bytes⦄, domain a → domain b → write a ++ r = write b ++ s → a = b ∧ r = s

namespace PrefixCode

variable {α : Type} {domain : α → Prop} {write : α → Bytes}

theorem of_reads {reader : Reader α}
    (each : ∀ value, domain value → Reads reader (write value) value) :
    PrefixCode domain write := by
  intro a b r s aDomain bDomain same
  have readA := each a aDomain r
  rw [same, each b bDomain s] at readA
  simp only [Option.some.injEq, Prod.mk.injEq] at readA
  exact ⟨readA.1.symm, readA.2.symm⟩

theorem littleEndian (width : Nat) {toNat : α → Nat} (injective : Function.Injective toNat)
    (fits : ∀ value, toNat value < 256 ^ width) :
    PrefixCode (fun _ => True) fun value => Data.littleEndian width (toNat value) := by
  intro a b r s _ _ same
  have numbers : PrefixCode (· < 256 ^ width) (Data.littleEndian width) :=
    of_reads fun value bounded => Reads.littleEndian width value bounded
  have values := numbers (fits a) (fits b) same
  exact ⟨injective values.1, values.2⟩

theorem bytes {a b r s : Bytes} (length : a.length = b.length) (same : a ++ r = b ++ s) :
    a = b ∧ r = s :=
  List.append_inj same length

theorem flatMap (code : PrefixCode domain write) {xs ys : List α} {r s : Bytes}
    (length : xs.length = ys.length) (xsDomain : ∀ x ∈ xs, domain x) (ysDomain : ∀ y ∈ ys, domain y)
    (same : xs.flatMap write ++ r = ys.flatMap write ++ s) : xs = ys ∧ r = s := by
  induction xs generalizing ys with
  | nil =>
      cases ys with
      | nil => exact ⟨rfl, same⟩
      | cons y ys => simp at length
  | cons x xs ih =>
      cases ys with
      | nil => simp at length
      | cons y ys =>
          simp only [List.flatMap_cons, List.append_assoc] at same
          have head := code (xsDomain x (by simp)) (ysDomain y (by simp)) same
          have tail := ih (by simpa using length) (fun x member => xsDomain x (by simp [member]))
            (fun y member => ysDomain y (by simp [member])) head.2
          exact ⟨by rw [head.1, tail.1], tail.2⟩

theorem counted {size : Nat → Bytes} {bounded : Nat → Prop} (lengths : PrefixCode bounded size)
    (code : PrefixCode domain write) :
    PrefixCode (fun values : List α => bounded values.length ∧ ∀ value ∈ values, domain value)
      (fun values => size values.length ++ values.flatMap write) := by
  intro xs ys r s xsDomain ysDomain same
  simp only [List.append_assoc] at same
  have length := lengths xsDomain.1 ysDomain.1 same
  exact code.flatMap length.1 xsDomain.2 ysDomain.2 length.2

theorem countedBytes {size : Nat → Bytes} {bounded : Nat → Prop} (lengths : PrefixCode bounded size) :
    PrefixCode (fun data : Bytes => bounded data.length) (fun data => size data.length ++ data) := by
  intro a b r s aDomain bDomain same
  simp only [List.append_assoc] at same
  have length := lengths aDomain bDomain same
  exact bytes length.1 length.2

end PrefixCode

end BitCrystal.Data
