import BitCrystal.Tokens

namespace BitCrystal

open Data

/-! # FindAndDelete -/

namespace CScript

/-- The loops of FindAndDelete over the script that they erase from, with the iterator as a position and the
number of erasures so far. -/
def eraseLoop (b : CScript) : Nat → Nat → CScript → Nat → Option (CScript × Nat)
  | 0, _, _, _ => none
  | room + 1, pc, script, nFound =>
      if b.isPrefixOf (script.drop pc) then
        eraseLoop b room pc (script.take pc ++ script.drop (pc + b.length)) (nFound + 1)
      else
        match getOp (script.drop pc) with
        | none => some (script, nFound)
        | some (_, _, next) => eraseLoop b room (script.length - next.length) script nFound

/-- The script without its operations `b`. -/
def without (b script : CScript) : CScript :=
  encode (script.tokens.filter fun token => token.bytes ≠ b) ++ script.unparsed

variable {b rest : CScript} {tokens : List Token} {tail : Bytes}

/-- At an operation, `b` is found exactly where it is the operation. -/
theorem isPrefixOf_iff {token deleted : Token} (wellFormed : token.WellFormed) (operation : deleted.WellFormed)
    (rest : Bytes) : deleted.bytes.isPrefixOf (token.bytes ++ rest) ↔ token.bytes = deleted.bytes := by
  rw [List.isPrefixOf_iff_prefix]
  constructor
  · rintro ⟨left, same⟩
    rw [(operation.unique wellFormed same).1]
  · intro same
    rw [← same]
    exact List.prefix_append _ _

theorem not_isPrefixOf_of_stuck {deleted : Token} (operation : deleted.WellFormed) (stuck : getOp tail = none) :
    ¬ deleted.bytes.isPrefixOf tail := by
  rw [List.isPrefixOf_iff_prefix]
  rintro ⟨left, rfl⟩
  rw [operation] at stuck
  contradiction

theorem eraseLoop_parses {deleted : Token} (operation : deleted.WellFormed) (parsed : Parses rest tokens tail)
    {room : Nat} (enough : tokens.length < room) (front : CScript) (nFound : Nat) :
    eraseLoop deleted.bytes room front.length (front ++ rest) nFound =
      some (front ++ (encode (tokens.filter fun token => token.bytes ≠ deleted.bytes) ++ tail),
        nFound + tokens.countP fun token => token.bytes = deleted.bytes) := by
  induction parsed generalizing room front nFound with
  | stop stuck =>
      obtain ⟨room, rfl⟩ := Nat.exists_eq_add_one_of_ne_zero (Nat.ne_zero_of_lt enough)
      rw [eraseLoop, List.drop_left, if_neg (not_isPrefixOf_of_stuck operation stuck), stuck]
      rfl
  | @step token rest tokens tail wellFormed _ ih =>
      obtain ⟨room, rfl⟩ := Nat.exists_eq_add_one_of_ne_zero (Nat.ne_zero_of_lt enough)
      have fewer : tokens.length < room := Nat.lt_of_succ_lt_succ enough
      rw [eraseLoop, List.drop_left]
      by_cases same : token.bytes = deleted.bytes
      · have erased : (front ++ (token.bytes ++ rest)).take front.length ++
            (front ++ (token.bytes ++ rest)).drop (front.length + deleted.bytes.length) = front ++ rest := by
          rw [List.take_left, ← List.drop_drop, List.drop_left, ← same, List.drop_left]
        rw [if_pos ((isPrefixOf_iff wellFormed operation rest).mpr same), erased, ih fewer,
          List.filter_cons_of_neg (by simpa using same), List.countP_cons_of_pos (by simpa using same)]
        congr 2
        omega
      · have position : (front ++ (token.bytes ++ rest)).length - rest.length = (front ++ token.bytes).length := by
          simp only [List.length_append]
          omega
        have further := ih fewer (front ++ token.bytes) nFound
        rw [List.append_assoc, List.append_assoc] at further
        rw [if_neg (by rwa [isPrefixOf_iff wellFormed operation]), wellFormed]
        simp only
        rw [position, further, List.filter_cons_of_pos (by simpa using same),
          List.countP_cons_of_neg (by simpa using same), encode_cons, List.append_assoc]

theorem findAndDeleteLoop_parses {deleted : Token} (operation : deleted.WellFormed) (parsed : Parses rest tokens tail)
    {room : Nat} (enough : tokens.length ≤ room) :
    findAndDeleteLoop deleted.bytes room rest =
      encode (tokens.filter fun token => token.bytes ≠ deleted.bytes) ++ tail := by
  induction parsed generalizing room with
  | stop stuck =>
      cases room with
      | zero => rfl
      | succ room =>
          rw [findAndDeleteLoop, if_neg (not_isPrefixOf_of_stuck operation stuck), stuck]
          rfl
  | @step token rest tokens tail wellFormed _ ih =>
      obtain ⟨room, rfl⟩ := Nat.exists_eq_add_one_of_ne_zero (Nat.ne_zero_of_lt enough)
      have fewer : tokens.length ≤ room := Nat.le_of_succ_le_succ enough
      rw [findAndDeleteLoop]
      by_cases same : token.bytes = deleted.bytes
      · rw [if_pos ((isPrefixOf_iff wellFormed operation rest).mpr same), ← same, List.drop_left, same, ih fewer,
          List.filter_cons_of_neg (by simpa using same)]
      · have front : (token.bytes ++ rest).take ((token.bytes ++ rest).length - rest.length) = token.bytes := by
          rw [List.length_append, Nat.add_sub_cancel, List.take_left]
        rw [if_neg (by rwa [isPrefixOf_iff wellFormed operation]), wellFormed]
        simp only
        rw [front, ih fewer, List.filter_cons_of_pos (by simpa using same), encode_cons, List.append_assoc]

theorem parses_without (b script : CScript) :
    Parses (without b script) (script.tokens.filter fun token => token.bytes ≠ b) script.unparsed :=
  .of_wellFormed (parses script).stuck fun token member =>
    (parses script).wellFormed token (List.mem_of_mem_filter member)

/-- FindAndDelete of an operation ends, counts its occurrences among the operations of the script and deletes
exactly these; a second time it finds none. -/
theorem findAndDelete_filters {b : CScript} (operation : IsOperation b) (script : CScript) :
    script = encode script.tokens ++ script.unparsed ∧ (∀ token ∈ script.tokens, token.WellFormed) ∧
    getOp script.unparsed = none ∧
    eraseLoop b (script.length + 1) 0 script 0 =
      some (without b script, script.tokens.countP fun token => token.bytes = b) ∧
    script.findAndDelete b = without b script ∧
    eraseLoop b ((without b script).length + 1) 0 (without b script) 0 = some (without b script, 0) ∧
    (without b script).findAndDelete b = without b script := by
  obtain ⟨deleted, rfl, wellFormed⟩ := operation.wellFormed
  have erases {script : CScript} {tokens : List Token} {tail : Bytes} (parsed : Parses script tokens tail) :
      eraseLoop deleted.bytes (script.length + 1) 0 script 0 =
        some (encode (tokens.filter fun token => token.bytes ≠ deleted.bytes) ++ tail,
          tokens.countP fun token => token.bytes = deleted.bytes) ∧
      script.findAndDelete deleted.bytes = encode (tokens.filter fun token => token.bytes ≠ deleted.bytes) ++ tail := by
    have run := eraseLoop_parses wellFormed parsed (Nat.lt_succ_of_le parsed.length_le) [] 0
    rw [Nat.zero_add] at run
    refine ⟨run, ?_⟩
    rw [findAndDelete, if_neg wellFormed.bytes_ne_nil]
    exact findAndDeleteLoop_parses wellFormed parsed parsed.length_le
  have whole := parses script
  have again := erases (parses_without deleted.bytes script)
  have none : (script.tokens.filter fun token => token.bytes ≠ deleted.bytes).countP
      (fun token => token.bytes = deleted.bytes) = 0 := by
    rw [List.countP_eq_zero]
    intro token member
    simpa using (List.mem_filter.mp member).2
  rw [List.filter_filter] at again
  simp only [Bool.and_self, none] at again
  exact ⟨whole.eq_encode, whole.wellFormed, whole.stuck, (erases whole).1, (erases whole).2, again.1, again.2⟩

/-- A separator that is the operand of a push stays. -/
theorem findAndDelete_filters_separator :
    findAndDelete [OP_CODESEPARATOR, 1, OP_CODESEPARATOR, OP_CODESEPARATOR, 2, 3] [OP_CODESEPARATOR] =
      without [OP_CODESEPARATOR] [OP_CODESEPARATOR, 1, OP_CODESEPARATOR, OP_CODESEPARATOR, 2, 3] :=
  (findAndDelete_filters (b := [OP_CODESEPARATOR]) ⟨OP_CODESEPARATOR, [], rfl⟩ _).2.2.2.2.1

end CScript

end BitCrystal
