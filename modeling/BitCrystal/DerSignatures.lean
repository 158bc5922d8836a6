import BitCrystal.BigNumBytes
import BitCrystal.InterpreterLimits

namespace BitCrystal

open Data

/-! # Strict encodings of signatures -/

/-- The shortest encoding of a natural number as an integer of DER, highest byte first. -/
def derInteger (n : Nat) : Bytes := if n = 0 then [0] else (CBigNum.magnitude n).reverse

/-- The encoding of two integers as a signature: a sequence with its length, and each integer with its own. -/
def derSignature (r s : Nat) : Bytes :=
  let body := [0x02, UInt8.ofNat (derInteger r).length] ++ derInteger r ++
    ([0x02, UInt8.ofNat (derInteger s).length] ++ derInteger s)
  [0x30, UInt8.ofNat body.length] ++ body

/-- SIGHASH_ALL, SIGHASH_NONE and SIGHASH_SINGLE, with and without SIGHASH_ANYONECANPAY. -/
def hashTypes : List UInt8 := [0x01, 0x02, 0x03, 0x81, 0x82, 0x83]

/-- Not negative, and without a byte that the sign does not need. -/
def minimal : Bytes → Bool
  | [] => false
  | [first] => first &&& 0x80 = 0
  | first :: second :: _ => first &&& 0x80 = 0 && (first ≠ 0 || second &&& 0x80 ≠ 0)

/-! ## Minimal integers -/

theorem hashTypes_iff (byte : UInt8) :
    (¬ (byte &&& ~~~0x80 < 1 ∨ byte &&& ~~~0x80 > 3)) ↔ byte ∈ hashTypes := by
  have bytes : ∀ n : Fin 256, ((¬ (UInt8.ofNat n &&& ~~~0x80 < 1 ∨ UInt8.ofNat n &&& ~~~0x80 > 3)) ↔
      UInt8.ofNat n ∈ hashTypes) := by decide +kernel
  have value := bytes ⟨byte.toNat, byte.toNat_lt⟩
  rwa [UInt8.ofNat_toNat] at value

theorem minimal_derInteger (n : Nat) : minimal (derInteger n) := by
  by_cases zero : n = 0
  · subst zero
    rfl
  · obtain ⟨front, last, nonzero, rfl⟩ := CBigNum.exists_bytes zero
    rw [derInteger, if_neg zero, CBigNum.magnitude_eq _ nonzero]
    by_cases small : last < 0x80
    · rw [if_pos small, List.reverse_append, List.reverse_singleton, List.singleton_append]
      cases front.reverse with
      | nil => simpa [minimal, sign_clear_iff] using small
      | cons second rest => simpa [minimal, sign_clear_iff, nonzero] using small
    · rw [if_neg small, List.reverse_append, List.reverse_append, List.reverse_singleton, List.reverse_singleton,
        List.singleton_append, List.singleton_append]
      simpa [minimal, sign_clear_iff] using small

theorem derInteger_ne_zero {n : Nat} (positive : 0 < n) : derInteger n ≠ [0] := by
  obtain ⟨front, last, nonzero, rfl⟩ := CBigNum.exists_bytes (Nat.pos_iff_ne_zero.mp positive)
  rw [derInteger, if_neg (Nat.pos_iff_ne_zero.mp positive), CBigNum.magnitude_eq _ nonzero]
  intro same
  split at same
  · rw [List.reverse_append, List.reverse_singleton, List.singleton_append, List.cons.injEq] at same
    exact nonzero same.1
  · have length := congrArg List.length same
    simp at length

theorem exists_derInteger {bytes : Bytes} (shortest : minimal bytes) : ∃ n, bytes = derInteger n := by
  have nonzero_of {front : Bytes} {last : UInt8} (nonzero : last ≠ 0) : ofLittleEndian (front ++ [last]) ≠ 0 := by
    intro zero
    have value := ofLittleEndian_append front [last]
    rw [zero, ofLittleEndian, ofLittleEndian] at value
    have positive : 0 < last.toNat := Nat.pos_of_ne_zero fun none => nonzero (UInt8.toNat_inj.mp none)
    have power : 0 < 256 ^ front.length := Nat.pow_pos (by decide)
    have := Nat.mul_pos power positive
    rw [Nat.mul_zero, Nat.add_zero] at value
    omega
  -- the number is read off the bytes from the first one that is not zero on
  have encodes (front : Bytes) {last : UInt8} (nonzero : last ≠ 0) :
      derInteger (ofLittleEndian (front.reverse ++ [last])) =
        if last < 0x80 then last :: front else 0 :: last :: front := by
    rw [derInteger, if_neg (nonzero_of nonzero), CBigNum.magnitude_eq _ nonzero]
    split <;> simp
  cases bytes with
  | nil => contradiction
  | cons first tail =>
      cases tail with
      | nil =>
          by_cases zero : first = 0
          · subst zero
            exact ⟨0, rfl⟩
          · have clear : first < 0x80 := by simpa [minimal, sign_clear_iff] using shortest
            exact ⟨_, by rw [encodes [] zero, if_pos clear]⟩
      | cons second rest =>
          simp only [minimal, Bool.and_eq_true, Bool.or_eq_true, decide_eq_true_eq, ne_eq, sign_clear_iff] at shortest
          obtain ⟨clear, nonzero | set⟩ := shortest
          · exact ⟨_, by rw [encodes (second :: rest) nonzero, if_pos clear]⟩
          · by_cases zero : first = 0
            · subst zero
              have nonzero : second ≠ 0 := by
                rintro rfl
                exact set (by decide)
              exact ⟨_, by rw [encodes rest nonzero, if_neg set]⟩
            · exact ⟨_, by rw [encodes (second :: rest) zero, if_pos clear]⟩

/-! ## The checks -/

theorem byteAt_eq {vch : Bytes} {i : Nat} {byte : UInt8} (found : vch[i]? = some byte) : byteAt vch i = .ok byte := by
  rw [byteAt, found]
  rfl

theorem isCanonicalInteger_eq {vchSig integer : Bytes} {start : Nat} {type : UInt8}
    (typed : vchSig[start - 2]? = some type) (cut : (vchSig.drop start).take integer.length = integer) :
    isCanonicalInteger vchSig start integer.length = .ok (type = 0x02 ∧ minimal integer) := by
  have place (i : Nat) (inside : i < integer.length) : vchSig[start + i]? = integer[i]? := by
    rw [← cut, List.getElem?_take_of_lt inside, List.getElem?_drop]
  rw [isCanonicalInteger, byteAt_eq typed, ok_bind]
  by_cases integerType : type = 0x02
  · rw [if_neg (not_not.mpr integerType)]
    match integer with
    | [] => simp [minimal, pure, Except.pure]
    | [first] =>
        have read : vchSig[start]? = some first := place 0 (by simp)
        rw [if_neg (by simp), byteAt_eq read, ok_bind]
        by_cases clear : first &&& 0x80 = 0 <;> simp [minimal, integerType, clear, pure, Except.pure]
    | first :: second :: rest =>
        have read : vchSig[start]? = some first := place 0 (by simp)
        have readSecond : vchSig[start + 1]? = some second := place 1 (by simp)
        rw [if_neg (by simp), byteAt_eq read, ok_bind, byteAt_eq readSecond]
        by_cases clear : first &&& 0x80 = 0 <;> by_cases zero : first = 0 <;>
          simp [minimal, integerType, clear, zero, pure, Except.pure]
  · rw [if_pos integerType]
    simp [integerType, pure, Except.pure]

/-- The bytes of a signature with their places. -/
structure Layout (vchSig R S : Bytes) (first total typeR lenR typeS lenS last : UInt8) : Prop where
  bytes : vchSig = [first, total, typeR, lenR] ++ R ++ ([typeS, lenS] ++ S) ++ [last]
  sizeR : R.length = lenR.toNat
  sizeS : S.length = lenS.toNat

theorem drop_eq_cons {bytes : Bytes} {i : Nat} {byte : UInt8} (found : bytes[i]? = some byte) :
    bytes.drop i = byte :: bytes.drop (i + 1) := by
  obtain ⟨inside, rfl⟩ := List.getElem?_eq_some_iff.mp found
  exact List.drop_eq_getElem_cons inside

theorem exists_layout {vchSig : Bytes} (long : 9 ≤ vchSig.length) {lenR lenS : UInt8} (readR : vchSig[3]? = some lenR)
    (readS : vchSig[5 + lenR.toNat]? = some lenS) (fills : lenR.toNat + lenS.toNat + 7 = vchSig.length) :
    ∃ R S first total typeR typeS last, Layout vchSig R S first total typeR lenR typeS lenS last := by
  have read (i : Nat) (inside : i < vchSig.length) : ∃ byte, vchSig[i]? = some byte :=
    ⟨_, List.getElem?_eq_getElem inside⟩
  obtain ⟨first, readFirst⟩ := read 0 (by omega)
  obtain ⟨total, readTotal⟩ := read 1 (by omega)
  obtain ⟨typeR, readTypeR⟩ := read 2 (by omega)
  obtain ⟨typeS, readTypeS⟩ := read (4 + lenR.toNat) (by omega)
  obtain ⟨last, readLast⟩ := read (6 + lenR.toNat + lenS.toNat) (by omega)
  refine ⟨(vchSig.drop 4).take lenR.toNat, (vchSig.drop (6 + lenR.toNat)).take lenS.toNat, first, total, typeR, typeS,
    last, ?_, ?_, ?_⟩
  · have header : vchSig = first :: total :: typeR :: lenR :: vchSig.drop 4 := by
      rw [← drop_eq_cons readR, ← drop_eq_cons readTypeR, ← drop_eq_cons readTotal, ← drop_eq_cons readFirst,
        List.drop_zero]
    have middle : vchSig.drop (4 + lenR.toNat) = typeS :: lenS :: vchSig.drop (6 + lenR.toNat) := by
      rw [drop_eq_cons readTypeS, show 4 + lenR.toNat + 1 = 5 + lenR.toNat by omega, drop_eq_cons readS,
        show 5 + lenR.toNat + 1 = 6 + lenR.toNat by omega]
    have final : vchSig.drop (6 + lenR.toNat + lenS.toNat) = [last] := by
      rw [drop_eq_cons readLast, List.drop_eq_nil_of_le (by omega)]
    have cut (start count : Nat) :
        vchSig.drop start = (vchSig.drop start).take count ++ vchSig.drop (start + count) := by
      rw [← List.drop_drop, List.take_append_drop]
    have whole : vchSig.drop 4 = (vchSig.drop 4).take lenR.toNat ++
        (typeS :: lenS :: ((vchSig.drop (6 + lenR.toNat)).take lenS.toNat ++ [last])) := by
      rw [← final, ← cut, ← middle, ← cut]
    calc vchSig = first :: total :: typeR :: lenR :: vchSig.drop 4 := header
      _ = first :: total :: typeR :: lenR :: ((vchSig.drop 4).take lenR.toNat ++
          (typeS :: lenS :: ((vchSig.drop (6 + lenR.toNat)).take lenS.toNat ++ [last]))) := by rw [← whole]
      _ = [first, total, typeR, lenR] ++ (vchSig.drop 4).take lenR.toNat ++
          ([typeS, lenS] ++ (vchSig.drop (6 + lenR.toNat)).take lenS.toNat) ++ [last] := by simp
  · rw [List.length_take, List.length_drop]
    omega
  · rw [List.length_take, List.length_drop]
    omega

section

variable {vchSig R S : Bytes} {first total typeR lenR typeS lenS last : UInt8}

theorem Layout.length (layout : Layout vchSig R S first total typeR lenR typeS lenS last) :
    vchSig.length = R.length + S.length + 7 := by
  rw [layout.bytes]
  simp only [List.length_append, List.length_cons, List.length_nil]
  omega

/-- On bytes in their places the checks ask for exactly these values. -/
theorem Layout.isCanonicalSignature_eq (layout : Layout vchSig R S first total typeR lenR typeS lenS last) :
    isCanonicalSignature vchSig =
      .ok (9 ≤ vchSig.length ∧ vchSig.length ≤ 73 ∧ last ∈ hashTypes ∧ first = 0x30 ∧
        total.toNat = vchSig.length - 3 ∧ (typeR = 0x02 ∧ minimal R) ∧ typeS = 0x02 ∧ minimal S) := by
  have length := layout.length
  obtain ⟨bytes, sizeR, sizeS⟩ := layout
  have front : vchSig = [first, total, typeR, lenR] ++ (R ++ ([typeS, lenS] ++ (S ++ [last]))) := by
    rw [bytes]
    simp only [List.append_assoc]
  have readLast : vchSig[vchSig.length - 1]? = some last := by
    rw [bytes, ← List.getLast?_eq_getElem?, List.getLast?_append, List.getLast?_singleton, Option.some_or]
  have readS (i : Nat) : vchSig[4 + R.length + i]? = ([typeS, lenS] ++ (S ++ [last]))[i]? := by
    have behind : 4 + R.length + i = 4 + (R.length + i) := by omega
    rw [front, behind, List.getElem?_append_right (Nat.le_add_right 4 _)]
    show (R ++ ([typeS, lenS] ++ (S ++ [last])))[4 + (R.length + i) - 4]? = _
    rw [Nat.add_sub_cancel_left, List.getElem?_append_right (Nat.le_add_right _ _), Nat.add_sub_cancel_left]
  have readTypeS : vchSig[6 + R.length - 2]? = some typeS := by
    have read := readS 0
    rwa [show 4 + R.length + 0 = 6 + R.length - 2 by omega] at read
  have readLenS : vchSig[5 + R.length]? = some lenS := by
    have read := readS 1
    rwa [show 4 + R.length + 1 = 5 + R.length by omega] at read
  have cutR : (vchSig.drop 4).take R.length = R := by
    rw [front]
    exact List.take_left
  have cutS : (vchSig.drop (6 + R.length)).take S.length = S := by
    have shift : 6 + R.length = 4 + (R.length + 2) := by omega
    rw [front, shift, ← List.drop_drop, ← List.drop_drop]
    show ((((R ++ ([typeS, lenS] ++ (S ++ [last])))).drop R.length).drop 2).take S.length = S
    rw [List.drop_left]
    exact List.take_left
  have readTypeR : vchSig[4 - 2]? = some typeR := by
    rw [front]
    rfl
  have integerR := isCanonicalInteger_eq readTypeR cutR
  have integerS := isCanonicalInteger_eq readTypeS cutS
  have refused {P : Prop} [Decidable P] (fails : ¬ P) : (Except.ok false : Except Failure Bool) = .ok (decide P) := by
    rw [decide_eq_false fails]
  rw [isCanonicalSignature]
  by_cases short : vchSig.length < 9
  · rw [if_pos short]
    exact refused fun all => by omega
  rw [if_neg short]
  by_cases long : vchSig.length > 73
  · rw [if_pos long]
    exact refused fun all => by omega
  rw [if_neg long, byteAt_eq readLast, ok_bind]
  by_cases hashType : last ∈ hashTypes
  swap
  · have unknown := not_not.mp (mt (hashTypes_iff last).mp hashType)
    simp only [if_pos unknown]
    exact refused fun all => hashType all.2.2.1
  simp only [if_neg ((hashTypes_iff last).mpr hashType)]
  rw [byteAt_eq (show vchSig[0]? = some first by rw [front]; rfl), ok_bind]
  by_cases sequence : first = 0x30
  swap
  · rw [if_pos sequence]
    exact refused fun all => sequence all.2.2.2.1
  rw [if_neg (not_not.mpr sequence), byteAt_eq (show vchSig[1]? = some total by rw [front]; rfl), ok_bind]
  by_cases marker : total.toNat = vchSig.length - 3
  swap
  · rw [if_pos marker]
    exact refused fun all => marker all.2.2.2.2.1
  rw [if_neg (not_not.mpr marker), byteAt_eq (show vchSig[3]? = some lenR by rw [front]; rfl), ok_bind, ← sizeR,
    if_neg (by omega), byteAt_eq readLenS, ok_bind, ← sizeS, if_neg (by omega), integerR, ok_bind, integerS]
  by_cases canonicalR : typeR = 0x02 ∧ minimal R
  swap
  · rw [if_neg (by simpa using canonicalR)]
    exact refused fun all => canonicalR all.2.2.2.2.2.1
  rw [if_pos (by simpa using canonicalR)]
  congr 1
  rw [decide_eq_decide]
  exact ⟨fun last => ⟨by omega, by omega, hashType, sequence, marker, canonicalR, last⟩, fun all => all.2.2.2.2.2.2⟩

end

theorem layout_of_canonical {vchSig : Bytes} (run : isCanonicalSignature vchSig = .ok true) :
    ∃ R S first total typeR lenR typeS lenS last, Layout vchSig R S first total typeR lenR typeS lenS last := by
  rw [isCanonicalSignature] at run
  split at run
  · contradiction
  rename_i long
  split at run
  · contradiction
  obtain ⟨last, -, run⟩ := bind_eq_ok.mp run
  dsimp only at run
  split at run
  · contradiction
  obtain ⟨first, -, run⟩ := bind_eq_ok.mp run
  split at run
  · contradiction
  obtain ⟨total, -, run⟩ := bind_eq_ok.mp run
  split at run
  · contradiction
  obtain ⟨lenR, readR, run⟩ := bind_eq_ok.mp run
  split at run
  · contradiction
  obtain ⟨lenS, readS, run⟩ := bind_eq_ok.mp run
  split at run
  · contradiction
  rename_i fills
  rw [byteAt, expect_eq_ok] at readR readS
  obtain ⟨R, S, first, total, typeR, typeS, last, layout⟩ :=
    exists_layout (Nat.not_lt.mp long) readR readS (not_not.mp fills)
  exact ⟨R, S, first, total, typeR, lenR, typeS, lenS, last, layout⟩

theorem length_pos_of_minimal {integer : Bytes} (shortest : minimal integer) : 0 < integer.length := by
  cases integer with
  | nil => contradiction
  | cons first rest => exact Nat.succ_pos _

theorem derSignature_eq (r s : Nat) : derSignature r s =
    [0x30, UInt8.ofNat ((derInteger r).length + (derInteger s).length + 4), 0x02, UInt8.ofNat (derInteger r).length] ++
      derInteger r ++ ([0x02, UInt8.ofNat (derInteger s).length] ++ derInteger s) := by
  have total : ([0x02, UInt8.ofNat (derInteger r).length] ++ derInteger r ++
      ([0x02, UInt8.ofNat (derInteger s).length] ++ derInteger s)).length =
        (derInteger r).length + (derInteger s).length + 4 := by
    simp only [List.length_append, List.length_cons, List.length_nil]
    omega
  rw [derSignature, total]
  rfl

/-- IsCanonicalSignature looks at no byte outside of its argument, and accepts exactly the strict encodings of
two natural numbers with an allowed hash type that are not longer than a signature can be. -/
theorem isCanonicalSignature_der (vchSig : Bytes) :
    ∃ canonical, isCanonicalSignature vchSig = .ok canonical ∧
      (canonical = true ↔ vchSig.length ≤ 73 ∧
        ∃ r s : Nat, ∃ hashType ∈ hashTypes, vchSig = derSignature r s ++ [hashType]) := by
  obtain ⟨canonical, run⟩ : ∃ canonical, isCanonicalSignature vchSig = .ok canonical := by
    have safe : Sat (isCanonicalSignature vchSig) (fun _ => True) (fun _ => False) := isCanonicalSignature_sat vchSig
    cases answer : isCanonicalSignature vchSig with
    | ok canonical => exact ⟨canonical, rfl⟩
    | error reason =>
        rw [answer] at safe
        exact safe.elim
  refine ⟨canonical, run, ?_⟩
  constructor
  · rintro rfl
    obtain ⟨R, S, first, total, typeR, lenR, typeS, lenS, last, layout⟩ := layout_of_canonical run
    rw [layout.isCanonicalSignature_eq, Except.ok.injEq, decide_eq_true_eq] at run
    obtain ⟨-, short, allowed, rfl, marker, ⟨rfl, minimalR⟩, rfl, minimalS⟩ := run
    obtain ⟨r, rfl⟩ := exists_derInteger minimalR
    obtain ⟨s, rfl⟩ := exists_derInteger minimalS
    have length := layout.length
    have total_eq : total = UInt8.ofNat ((derInteger r).length + (derInteger s).length + 4) := by
      rw [show (derInteger r).length + (derInteger s).length + 4 = total.toNat by omega, UInt8.ofNat_toNat]
    refine ⟨short, r, s, last, allowed, ?_⟩
    rw [layout.bytes, derSignature_eq, total_eq, layout.sizeR, layout.sizeS, UInt8.ofNat_toNat, UInt8.ofNat_toNat]
  · rintro ⟨short, r, s, hashType, allowed, rfl⟩
    have sizeR := length_pos_of_minimal (minimal_derInteger r)
    have sizeS := length_pos_of_minimal (minimal_derInteger s)
    have length : (derSignature r s ++ [hashType]).length = (derInteger r).length + (derInteger s).length + 7 := by
      rw [derSignature_eq]
      simp only [List.length_append, List.length_cons, List.length_nil]
      omega
    have byte {n : Nat} (small : n < 256) : n = (UInt8.ofNat n).toNat := by
      rw [UInt8.toNat_ofNat', Nat.mod_eq_of_lt small]
    have layout : Layout (derSignature r s ++ [hashType]) (derInteger r) (derInteger s) _ _ _ _ _ _ _ :=
      ⟨by rw [derSignature_eq], byte (by omega), byte (by omega)⟩
    rw [layout.isCanonicalSignature_eq, Except.ok.injEq] at run
    rw [← run, decide_eq_true_eq, ← byte (by omega)]
    exact ⟨by omega, short, allowed, rfl, by omega, ⟨rfl, minimal_derInteger r⟩, rfl, minimal_derInteger s⟩

/-- Zero is accepted for both integers. -/
theorem isCanonicalSignature_zero :
    ¬ ∃ canonical, isCanonicalSignature [0x30, 6, 0x02, 1, 0, 0x02, 1, 0, 0x01] = .ok canonical ∧
      (canonical = true ↔ ∃ r s : Nat, 0 < r ∧ 0 < s ∧ ∃ hashType ∈ hashTypes,
        [0x30, 6, 0x02, 1, 0, 0x02, 1, 0, 0x01] = derSignature r s ++ [hashType]) := by
  rintro ⟨canonical, run, exact⟩
  have accepted : isCanonicalSignature [0x30, 6, 0x02, 1, 0, 0x02, 1, 0, 0x01] = .ok true := by decide
  rw [accepted, Except.ok.injEq] at run
  obtain ⟨r, s, positive, -, hashType, -, same⟩ := exact.mp run.symm
  rw [derSignature_eq] at same
  simp only [List.cons_append, List.nil_append, List.append_assoc, List.cons.injEq] at same
  obtain ⟨-, -, -, -, same⟩ := same
  have shortest := minimal_derInteger r
  match integer : derInteger r with
  | [] =>
      rw [integer] at shortest
      contradiction
  | [first] =>
      rw [integer, List.singleton_append, List.cons.injEq] at same
      rw [← same.1] at integer
      exact derInteger_ne_zero positive integer
  | first :: second :: rest =>
      rw [integer] at same shortest
      simp only [List.cons_append, List.cons.injEq] at same
      rw [← same.1, ← same.2.1] at shortest
      contradiction

end BitCrystal
