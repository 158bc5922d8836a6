import BitCrystal.SignatureHash

namespace BitCrystal

open Data

/-! # The operations of a script -/

namespace CScript

structure Token where
  opcode : UInt8
  operand : Bytes
  bytes : Bytes
deriving DecidableEq

/-- GetOp reads the operation off its bytes, whatever follows. -/
def Token.WellFormed (token : Token) : Prop :=
  ∀ rest, getOp (token.bytes ++ rest) = some (token.opcode, token.operand, rest)

/-- The operations that GetOp reads, at most `room` of them, and the bytes at which it fails. -/
def parseLoop : Nat → Bytes → List Token × Bytes
  | 0, pc => ([], pc)
  | room + 1, pc =>
      match getOp pc with
      | none => ([], pc)
      | some (opcode, operand, next) =>
          let (tokens, unparsed) := parseLoop room next
          (⟨opcode, operand, pc.take (pc.length - next.length)⟩ :: tokens, unparsed)

def tokens (script : CScript) : List Token := (parseLoop script.length script).1

def unparsed (script : CScript) : Bytes := (parseLoop script.length script).2

/-- The bytes of operations one after the other. -/
def encode (tokens : List Token) : CScript := tokens.flatMap Token.bytes

@[simp] theorem encode_nil : encode [] = [] := rfl

@[simp] theorem encode_cons (token : Token) (tokens : List Token) :
    encode (token :: tokens) = token.bytes ++ encode tokens :=
  List.flatMap_cons

def IsOperation (b : CScript) : Prop := ∃ opcode operand, getOp b = some (opcode, operand, [])

/-- `script` begins with the operations `tokens`, and GetOp fails at what follows them. -/
inductive Parses : CScript → List Token → Bytes → Prop
  | stop {tail : Bytes} (stuck : getOp tail = none) : Parses tail [] tail
  | step {token : Token} {rest : CScript} {tokens : List Token} {tail : Bytes} (wellFormed : token.WellFormed)
      (more : Parses rest tokens tail) : Parses (token.bytes ++ rest) (token :: tokens) tail

/-! ## GetOp looks at nothing behind the operation -/

theorem pushOperand_split {opcode opcodeRet : UInt8} {width : Nat} {pc vchRet next : Bytes}
    (push : pushOperand opcode width pc = some (opcodeRet, vchRet, next)) :
    ∃ bytes, pc = bytes ++ next ∧ ∀ rest, pushOperand opcode width (bytes ++ rest) = some (opcodeRet, vchRet, rest) := by
  simp only [pushOperand, Option.ite_none_left_eq_some, Option.some.injEq, Prod.mk.injEq] at push
  obtain ⟨long, complete, rfl, rfl, rfl⟩ := push
  rw [List.length_drop] at complete
  refine ⟨pc.take (width + ofLittleEndian (pc.take width)), ?_, fun rest => ?_⟩
  · rw [List.drop_drop, List.take_append_drop]
  · generalize size : ofLittleEndian (pc.take width) = nSize at complete ⊢
    have cut : (pc.take (width + nSize)).length = width + nSize := by
      rw [List.length_take]
      omega
    have front : (pc.take (width + nSize) ++ rest).take width = pc.take width := by
      rw [List.take_append_of_le_length (by omega), List.take_take, Nat.min_eq_left (by omega)]
    have back : (pc.take (width + nSize) ++ rest).drop width = (pc.drop width).take nSize ++ rest := by
      rw [List.drop_append_of_le_length (by omega), List.take_add, List.drop_left']
      rw [List.length_take]
      omega
    have operand : ((pc.drop width).take nSize).length = nSize := by
      rw [List.length_take, List.length_drop]
      omega
    have enough : ¬ (pc.take (width + nSize) ++ rest).length < width := by
      rw [List.length_append]
      omega
    have whole : ¬ ((pc.drop width).take nSize ++ rest).length < nSize := by
      rw [List.length_append]
      omega
    rw [pushOperand, if_neg enough]
    simp only [front, size, back]
    rw [if_neg whole, List.take_left' operand, List.drop_left' operand]

theorem getOp_split {pc vchRet next : Bytes} {opcodeRet : UInt8} (found : getOp pc = some (opcodeRet, vchRet, next)) :
    ∃ bytes, pc = bytes ++ next ∧ Token.WellFormed ⟨opcodeRet, vchRet, bytes⟩ := by
  cases pc with
  | nil => contradiction
  | cons opcode pc =>
      have pushed {width : Nat} (push : pushOperand opcode width pc = some (opcodeRet, vchRet, next))
          (reads : ∀ pc, getOp (opcode :: pc) = pushOperand opcode width pc) :
          ∃ bytes, opcode :: pc = bytes ++ next ∧ Token.WellFormed ⟨opcodeRet, vchRet, bytes⟩ := by
        obtain ⟨bytes, rfl, again⟩ := pushOperand_split push
        refine ⟨opcode :: bytes, rfl, fun rest => ?_⟩
        show getOp (opcode :: (bytes ++ rest)) = _
        rw [reads, again]
      simp only [getOp] at found
      split_ifs at found with direct short one two four
      · obtain ⟨rfl, rfl, rfl⟩ : opcode = opcodeRet ∧ pc.take opcode.toNat = vchRet ∧ pc.drop opcode.toNat = next := by
          simpa only [Option.some.injEq, Prod.mk.injEq] using found
        refine ⟨opcode :: pc.take opcode.toNat, by simp, fun rest => ?_⟩
        have length : (pc.take opcode.toNat).length = opcode.toNat := by
          rw [List.length_take]
          omega
        have enough : ¬ (pc.take opcode.toNat ++ rest).length < opcode.toNat := by
          rw [List.length_append]
          omega
        simp only [List.cons_append, getOp, if_pos direct, if_neg enough, List.take_left' length,
          List.drop_left' length]
      · exact pushed found fun pc => by simp only [getOp, if_neg direct, if_pos one]
      · exact pushed found fun pc => by simp only [getOp, if_neg direct, if_neg one, if_pos two]
      · exact pushed found fun pc => by simp only [getOp, if_neg direct, if_neg one, if_neg two, if_pos four]
      · obtain ⟨rfl, rfl, rfl⟩ : opcode = opcodeRet ∧ [] = vchRet ∧ pc = next := by
          simpa only [Option.some.injEq, Prod.mk.injEq] using found
        refine ⟨[opcode], rfl, fun rest => ?_⟩
        simp only [List.singleton_append, getOp, if_neg direct, if_neg one, if_neg two, if_neg four]

theorem Token.WellFormed.bytes_ne_nil {token : Token} (wellFormed : token.WellFormed) : token.bytes ≠ [] := by
  intro none
  have read := wellFormed []
  rw [none] at read
  contradiction

theorem Token.WellFormed.unique {token other : Token} (wellFormed : token.WellFormed) (also : other.WellFormed)
    {rest otherRest : Bytes} (same : token.bytes ++ rest = other.bytes ++ otherRest) :
    token = other ∧ rest = otherRest := by
  have read := wellFormed rest
  rw [same, also otherRest] at read
  simp only [Option.some.injEq, Prod.mk.injEq] at read
  obtain ⟨opcode, operand, rfl⟩ := read
  have bytes := List.append_cancel_right same
  refine ⟨?_, rfl⟩
  cases token
  cases other
  simp_all

theorem IsOperation.wellFormed {b : CScript} (operation : IsOperation b) :
    ∃ token : Token, token.bytes = b ∧ token.WellFormed := by
  obtain ⟨opcode, operand, read⟩ := operation
  obtain ⟨bytes, rfl, wellFormed⟩ := getOp_split read
  exact ⟨_, (List.append_nil bytes).symm, wellFormed⟩

/-! ## The parse of a script -/

theorem parses_parseLoop {room : Nat} {pc : Bytes} (enough : pc.length ≤ room) :
    Parses pc (parseLoop room pc).1 (parseLoop room pc).2 := by
  induction room generalizing pc with
  | zero =>
      rw [List.eq_nil_of_length_eq_zero (Nat.le_zero.mp enough)]
      exact .stop rfl
  | succ room ih =>
      cases found : getOp pc with
      | none =>
          simp only [parseLoop, found]
          exact .stop found
      | some read =>
          obtain ⟨opcode, operand, next⟩ := read
          have shorter := getOp_length found
          obtain ⟨bytes, rfl, wellFormed⟩ := getOp_split found
          have front : (bytes ++ next).take ((bytes ++ next).length - next.length) = bytes := by
            rw [List.length_append, Nat.add_sub_cancel]
            exact List.take_left
          simp only [parseLoop, found, front]
          exact .step wellFormed (ih (by omega))

theorem parses (script : CScript) : Parses script script.tokens script.unparsed :=
  parses_parseLoop (Nat.le_refl _)

namespace Parses

variable {script : CScript} {tokens : List Token} {tail : Bytes}

theorem unique (parsed : Parses script tokens tail) {others : List Token} {otherTail : Bytes}
    (also : Parses script others otherTail) : tokens = others ∧ tail = otherTail := by
  induction parsed generalizing others otherTail with
  | stop stuck =>
      cases also with
      | stop _ => exact ⟨rfl, rfl⟩
      | step wellFormed _ =>
          rw [wellFormed] at stuck
          contradiction
  | @step token rest _ _ wellFormed _ ih =>
      generalize whole : token.bytes ++ rest = script at also
      cases also with
      | stop stuck =>
          rw [← whole, wellFormed] at stuck
          contradiction
      | step otherWellFormed more =>
          obtain ⟨rfl, rfl⟩ := wellFormed.unique otherWellFormed whole
          obtain ⟨rfl, rfl⟩ := ih more
          exact ⟨rfl, rfl⟩

theorem tokens_eq (parsed : Parses script tokens tail) : script.tokens = tokens ∧ script.unparsed = tail :=
  (parses script).unique parsed

theorem eq_encode (parsed : Parses script tokens tail) : script = encode tokens ++ tail := by
  induction parsed with
  | stop _ => rfl
  | step _ _ ih => rw [encode_cons, List.append_assoc, ← ih]

theorem stuck (parsed : Parses script tokens tail) : getOp tail = none := by
  induction parsed with
  | stop stuck => exact stuck
  | step _ _ ih => exact ih

theorem wellFormed (parsed : Parses script tokens tail) : ∀ token ∈ tokens, token.WellFormed := by
  induction parsed with
  | stop _ => simp
  | step wellFormed _ ih =>
      intro token member
      rcases List.mem_cons.mp member with rfl | member
      · exact wellFormed
      · exact ih token member

theorem of_wellFormed (stuck : getOp tail = none) (wellFormed : ∀ token ∈ tokens, token.WellFormed) :
    Parses (encode tokens ++ tail) tokens tail := by
  induction tokens with
  | nil => exact .stop stuck
  | cons token tokens ih =>
      rw [encode_cons, List.append_assoc]
      exact .step (wellFormed token (by simp)) (ih fun other member => wellFormed other (by simp [member]))

theorem length_le (parsed : Parses script tokens tail) : tokens.length ≤ script.length := by
  induction parsed with
  | stop _ => exact Nat.zero_le _
  | step wellFormed _ ih =>
      have := List.length_pos_iff.mpr wellFormed.bytes_ne_nil
      rw [List.length_cons, List.length_append]
      omega

end Parses

end CScript

end BitCrystal
