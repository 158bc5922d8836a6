import BitCrystal.CreateTransaction
import BitCrystal.ScriptBuilder

namespace BitCrystal

open Data

/-! # The scripts that Solver recognizes -/

namespace CScript

def Token.isKey (token : Token) : Bool := 33 ≤ token.operand.length && token.operand.length ≤ 120

def Token.isSmallInteger (token : Token) : Bool :=
  token.opcode = OP_0 || (OP_1 ≤ token.opcode && token.opcode ≤ OP_16)

/-- Solver's data for a small integer. -/
def Token.number (token : Token) : Bytes := [UInt8.ofNat (decodeOP_N token.opcode)]

/-- The operations are an instance of the template of a type, with the matched data in order. -/
inductive Instance : txnouttype → List Token → List Bytes → Prop
  | pubkey {key checkSig : Token} (size : key.isKey) (checks : checkSig.opcode = OP_CHECKSIG) :
      Instance .TX_PUBKEY [key, checkSig] [key.operand]
  | pubkeyhash {dup hash160 hash equalVerify checkSig : Token} (duplicates : dup.opcode = OP_DUP)
      (hashes : hash160.opcode = OP_HASH160) (size : hash.operand.length = 20)
      (compares : equalVerify.opcode = OP_EQUALVERIFY) (checks : checkSig.opcode = OP_CHECKSIG) :
      Instance .TX_PUBKEYHASH [dup, hash160, hash, equalVerify, checkSig] [hash.operand]
  | multisig {m n checkMultiSig : Token} {keys : List Token} (first : m.isSmallInteger)
      (sizes : ∀ key ∈ keys, key.isKey) (last : n.isSmallInteger) (checks : checkMultiSig.opcode = OP_CHECKMULTISIG)
      (positive : 1 ≤ decodeOP_N m.opcode) (enough : decodeOP_N m.opcode ≤ decodeOP_N n.opcode)
      (count : decodeOP_N n.opcode = keys.length) :
      Instance .TX_MULTISIG (m :: (keys ++ [n, checkMultiSig])) (m.number :: (keys.map Token.operand ++ [n.number]))

/-! ## Matching operation by operation -/

/-- What matchTemplate does with the operations that it reads. -/
def matchTokens : List UInt8 → List Token → List Bytes → Option (List Bytes)
  | [], tokens, vSolutions => if tokens = [] then some vSolutions else none
  | _ :: _, [], _ => none
  | opcode2 :: rest, token :: tokens, vSolutions =>
      if opcode2 = OP_PUBKEYS then
        match rest, (token :: tokens).dropWhile Token.isKey with
        | following :: later, next :: tokens' =>
            match matchOp following next.opcode next.operand
                (vSolutions ++ ((token :: tokens).takeWhile Token.isKey).map Token.operand) with
            | none => none
            | some vSolutions => matchTokens later tokens' vSolutions
        | _, _ => none
      else
        match matchOp opcode2 token.opcode token.operand vSolutions with
        | none => none
        | some vSolutions => matchTokens rest tokens vSolutions

theorem Parses.getOp_eq {script : CScript} {tokens : List Token} {tail : Bytes} (parsed : Parses script tokens tail) :
    (tokens = [] ∧ script = tail ∧ getOp script = none) ∨
      ∃ token rest next, tokens = token :: rest ∧ token.WellFormed ∧ Parses next rest tail ∧
        script = token.bytes ++ next ∧ getOp script = some (token.opcode, token.operand, next) := by
  cases parsed with
  | stop stuck => exact .inl ⟨rfl, rfl, stuck⟩
  | step wellFormed more => exact .inr ⟨_, _, _, rfl, wellFormed, more, rfl, wellFormed _⟩

theorem takePubKeys_eq {room : Nat} (token : Token) {next : CScript} {tokens : List Token} {tail : Bytes}
    (parsed : Parses next tokens tail) (enough : tokens.length < room) (vSolutions : List Bytes) :
    match (token :: tokens).dropWhile Token.isKey with
    | [] => takePubKeys room (token.opcode, token.operand, next) vSolutions = none
    | last :: left => ∃ rest, Parses rest left tail ∧
        takePubKeys room (token.opcode, token.operand, next) vSolutions =
          some ((last.opcode, last.operand, rest),
            vSolutions ++ ((token :: tokens).takeWhile Token.isKey).map Token.operand) := by
  induction tokens generalizing room token next vSolutions with
  | nil =>
      obtain ⟨room, rfl⟩ := Nat.exists_eq_add_one_of_ne_zero (Nat.ne_zero_of_lt enough)
      obtain ⟨-, -, stuck⟩ | ⟨_, _, _, more, -⟩ := parsed.getOp_eq
      swap
      · contradiction
      by_cases key : token.isKey
      · have size : 33 ≤ token.operand.length ∧ token.operand.length ≤ 120 := by simpa [Token.isKey] using key
        simp only [List.dropWhile_cons, key, if_true, List.dropWhile_nil, takePubKeys, if_pos size, stuck]
      · have size : ¬ (33 ≤ token.operand.length ∧ token.operand.length ≤ 120) := by simpa [Token.isKey] using key
        simp only [List.dropWhile_cons, key, takePubKeys, if_neg size, List.takeWhile_cons]
        exact ⟨next, parsed, by simp⟩
  | cons second tokens ih =>
      obtain ⟨room, rfl⟩ := Nat.exists_eq_add_one_of_ne_zero (Nat.ne_zero_of_lt enough)
      obtain ⟨none, -⟩ | ⟨_, _, rest, same, -, more, -, read⟩ := parsed.getOp_eq
      · contradiction
      obtain ⟨rfl, rfl⟩ := List.cons.inj same
      by_cases key : token.isKey
      · have size : 33 ≤ token.operand.length ∧ token.operand.length ≤ 120 := by simpa [Token.isKey] using key
        have further := ih second more (Nat.lt_of_succ_lt_succ enough) (vSolutions ++ [token.operand])
        simp only [List.append_assoc, List.singleton_append] at further
        rw [List.dropWhile_cons_of_pos key, List.takeWhile_cons_of_pos key, takePubKeys, if_pos size, read]
        exact further
      · have size : ¬ (33 ≤ token.operand.length ∧ token.operand.length ≤ 120) := by simpa [Token.isKey] using key
        rw [List.dropWhile_cons_of_neg key, List.takeWhile_cons_of_neg key, takePubKeys, if_neg size]
        exact ⟨next, parsed, by simp⟩

/-- A template is matched against the operations; bytes that GetOp cannot read match nothing. -/
theorem matchTemplate_eq {script : CScript} {tokens : List Token} {tail : Bytes} (parsed : Parses script tokens tail)
    (script2 : List UInt8) (vSolutions : List Bytes) :
    matchTemplate script2 script vSolutions = if tail = [] then matchTokens script2 tokens vSolutions else none := by
  -- OP_PUBKEYS takes the opcode after it along, so the induction is on the length of the template
  induction length : script2.length using Nat.strong_induction_on generalizing script2 script tokens vSolutions with
  | _ size ih =>
      subst length
      cases script2 with
      | nil =>
          rw [matchTemplate, matchTokens]
          rcases parsed.getOp_eq with ⟨rfl, rfl, -⟩ | ⟨token, rest, next, rfl, wellFormed, -, rfl, -⟩
          · simp
          · simp [wellFormed.bytes_ne_nil]
      | cons opcode2 rest =>
          rcases parsed.getOp_eq with ⟨rfl, rfl, stuck⟩ | ⟨token, tokens, next, rfl, -, more, -, read⟩
          · rw [matchTemplate, stuck, matchTokens]
            simp
          · have fewer : tokens.length < script.length := parsed.length_le
            have keys := takePubKeys_eq token more fewer vSolutions
            rw [matchTemplate, read]
            unfold matchTokens
            simp only
            by_cases several : opcode2 = OP_PUBKEYS
            · rw [if_pos several, if_pos several]
              cases rest with
              | nil => simp
              | cons following later =>
                  cases left : (token :: tokens).dropWhile Token.isKey with
                  | nil =>
                      rw [left] at keys
                      rw [keys]
                      simp
                  | cons last left' =>
                      rw [left] at keys
                      obtain ⟨after, parsedAfter, taken⟩ := keys
                      rw [taken]
                      simp only
                      generalize matchOp following last.opcode last.operand _ = matched
                      cases matched with
                      | none => simp
                      | some vSolutions => exact ih later.length (by simp) parsedAfter later vSolutions rfl
            · rw [if_neg several, if_neg several]
              cases matchOp opcode2 token.opcode token.operand vSolutions with
              | none => simp
              | some vSolutions => exact ih rest.length (by simp) more rest vSolutions rfl

/-! ## The templates -/

theorem Token.WellFormed.operand_eq_nil {token : Token} (wellFormed : token.WellFormed)
    (plain : token.opcode = OP_0 ∨ OP_PUSHDATA4 < token.opcode) : token.operand = [] := by
  have read := wellFormed []
  obtain ⟨first, rest, bytes⟩ := List.exists_cons_of_ne_nil wellFormed.bytes_ne_nil
  have opcode : first = token.opcode := by
    rw [List.append_nil, bytes] at read
    simp only [getOp, pushOperand] at read
    split_ifs at read <;> simp_all
  have operation : Token.WellFormed ⟨first, [], [first]⟩ := opcode_wellFormed (opcode ▸ plain)
  have whole : token.bytes ++ [] = [first] ++ rest := by rw [List.append_nil, bytes]; rfl
  exact congrArg Token.operand (wellFormed.unique operation whole).1

theorem Token.isSmallInteger_iff {token : Token} :
    token.isSmallInteger ↔ token.opcode = OP_0 ∨ (OP_1 ≤ token.opcode ∧ token.opcode ≤ OP_16) := by
  simp [isSmallInteger]

theorem Token.WellFormed.not_isKey {token : Token} (wellFormed : token.WellFormed) (small : token.isSmallInteger) :
    ¬ token.isKey := by
  have plain : token.opcode = OP_0 ∨ OP_PUSHDATA4 < token.opcode :=
    (Token.isSmallInteger_iff.mp small).imp_right fun range => UInt8.lt_of_lt_of_le (by decide) range.1
  simp [Token.isKey, wellFormed.operand_eq_nil plain]

section

variable {token : Token} {vSolutions : List Bytes}

theorem matchOp_pubkey : matchOp OP_PUBKEY token.opcode token.operand vSolutions =
    if token.isKey then some (vSolutions ++ [token.operand]) else none := by
  by_cases key : token.isKey
  · have size : ¬ (token.operand.length < 33 ∨ 120 < token.operand.length) := by
      simp [Token.isKey] at key
      omega
    rw [if_pos key, matchOp, if_pos rfl, if_neg size]
  · have size : token.operand.length < 33 ∨ 120 < token.operand.length := by
      simp [Token.isKey] at key
      omega
    rw [if_neg key, matchOp, if_pos rfl, if_pos size]

theorem matchOp_pubkeyhash : matchOp OP_PUBKEYHASH token.opcode token.operand vSolutions =
    if token.operand.length = 20 then some (vSolutions ++ [token.operand]) else none := by
  rw [matchOp, if_neg (by decide), if_pos rfl]
  split_ifs <;> simp_all

theorem matchOp_smallInteger : matchOp OP_SMALLINTEGER token.opcode token.operand vSolutions =
    if token.isSmallInteger then some (vSolutions ++ [token.number]) else none := by
  rw [matchOp, if_neg (by decide), if_neg (by decide), if_pos rfl]
  simp only [Token.isSmallInteger_iff, Token.number]

theorem matchOp_opcode {opcode2 : UInt8} (plain : OP_PUSHDATA4 < opcode2) (fixed : opcode2 < OP_SMALLINTEGER)
    (wellFormed : token.WellFormed) : matchOp opcode2 token.opcode token.operand vSolutions =
      if token.opcode = opcode2 then some vSolutions else none := by
  have other (opcode : UInt8) (above : OP_SMALLINTEGER ≤ opcode) : opcode2 ≠ opcode := by
    rintro rfl
    exact absurd (UInt8.lt_of_lt_of_le fixed above) (UInt8.lt_irrefl _)
  rw [matchOp, if_neg (other _ (by decide)), if_neg (other _ (by decide)), if_neg (other _ (by decide))]
  by_cases same : token.opcode = opcode2
  · have empty := wellFormed.operand_eq_nil (.inr (same ▸ plain))
    rw [if_neg (by simp [same, empty]), if_pos same]
  · rw [if_pos (.inl same), if_neg same]

end

section

variable {tokens : List Token} {vSolutions final : List Bytes}

theorem matchTokens_nil : matchTokens [] tokens vSolutions = some final ↔ tokens = [] ∧ vSolutions = final := by
  rw [matchTokens]
  split <;> simp_all

theorem matchTokens_single {opcode2 : UInt8} (single : opcode2 ≠ OP_PUBKEYS) {rest : List UInt8} {token : Token}
    {left : List Token} : matchTokens (opcode2 :: rest) (token :: left) vSolutions =
      match matchOp opcode2 token.opcode token.operand vSolutions with
      | none => none
      | some vSolutions => matchTokens rest left vSolutions := by
  conv_lhs => unfold matchTokens
  rw [if_neg single]

theorem matchTokens_cons {opcode2 : UInt8} (single : opcode2 ≠ OP_PUBKEYS) {rest : List UInt8} :
    matchTokens (opcode2 :: rest) tokens vSolutions = some final ↔ ∃ token left matched, tokens = token :: left ∧
      matchOp opcode2 token.opcode token.operand vSolutions = some matched ∧
      matchTokens rest left matched = some final := by
  constructor
  · intro run
    cases tokens with
    | nil =>
        unfold matchTokens at run
        contradiction
    | cons token left =>
        rw [matchTokens_single single] at run
        split at run
        · contradiction
        · rename_i matched found
          exact ⟨token, left, matched, rfl, found, run⟩
  · rintro ⟨token, left, matched, rfl, found, run⟩
    rw [matchTokens_single single, found]
    exact run

theorem matchTokens_keys {following : UInt8} {later : List UInt8} :
    matchTokens (OP_PUBKEYS :: following :: later) tokens vSolutions = some final ↔ ∃ keys token left matched,
      tokens = keys ++ token :: left ∧ (∀ key ∈ keys, key.isKey) ∧ ¬ token.isKey ∧
      matchOp following token.opcode token.operand (vSolutions ++ keys.map Token.operand) = some matched ∧
      matchTokens later left matched = some final := by
  have split := List.takeWhile_append_dropWhile (p := Token.isKey) (l := tokens)
  have all : ∀ key ∈ tokens.takeWhile Token.isKey, key.isKey := fun key member => List.mem_takeWhile_imp member
  constructor
  · intro run
    cases tokens with
    | nil =>
        unfold matchTokens at run
        contradiction
    | cons first tokens =>
        unfold matchTokens at run
        rw [if_pos rfl] at run
        cases left : (first :: tokens).dropWhile Token.isKey with
        | nil =>
            rw [left] at run
            contradiction
        | cons token rest =>
            rw [left] at run split
            simp only at run
            have stops : ¬ token.isKey := by
              have head := List.head?_dropWhile_not Token.isKey (first :: tokens)
              rw [left] at head
              simpa using head
            split at run
            · contradiction
            · rename_i matched found
              exact ⟨_, token, rest, matched, split.symm, all, stops, found, run⟩
  · rintro ⟨keys, token, left, matched, rfl, sizes, stops, found, run⟩
    have taken : (keys ++ token :: left).takeWhile Token.isKey = keys := by
      rw [List.takeWhile_append_of_pos sizes, List.takeWhile_cons_of_neg stops, List.append_nil]
    have dropped : (keys ++ token :: left).dropWhile Token.isKey = token :: left := by
      rw [List.dropWhile_append_of_pos sizes, List.dropWhile_cons_of_neg stops]
    obtain ⟨first, rest, whole⟩ : ∃ first rest, keys ++ token :: left = first :: rest := by
      cases keys with
      | nil => exact ⟨token, left, rfl⟩
      | cons key keys => exact ⟨key, keys ++ token :: left, rfl⟩
    rw [whole] at taken dropped ⊢
    unfold matchTokens
    rw [if_pos rfl, taken, dropped]
    simp only [found]
    exact run

end

/-! ## Solver -/

theorem Token.number_le {token : Token} (small : token.isSmallInteger) : decodeOP_N token.opcode ≤ 16 := by
  rcases Token.isSmallInteger_iff.mp small with zero | ⟨-, upper⟩
  · rw [zero]
    decide
  · have bound : token.opcode.toNat ≤ 96 := UInt8.le_iff_toNat_le.mp upper
    have one : OP_1.toNat = 81 := rfl
    unfold decodeOP_N
    split <;> omega

theorem multisigCounts_iff {m n : Token} (first : m.isSmallInteger) (last : n.isSmallInteger) (keys : List Token) :
    multisigCounts (m.number :: (keys.map Token.operand ++ [n.number])) ↔
      1 ≤ decodeOP_N m.opcode ∧ decodeOP_N m.opcode ≤ decodeOP_N n.opcode ∧ decodeOP_N n.opcode = keys.length := by
  have lower := Token.number_le first
  have upper := Token.number_le last
  have back : (m.number :: (keys.map Token.operand ++ [n.number])).getLast? = some n.number := by
    rw [← List.cons_append, List.getLast?_append, List.getLast?_singleton, Option.some_or]
  have byteM : (UInt8.ofNat (decodeOP_N m.opcode)).toNat = decodeOP_N m.opcode := by
    rw [UInt8.toNat_ofNat', Nat.mod_eq_of_lt (by omega)]
  have byteN : (UInt8.ofNat (decodeOP_N n.opcode)).toNat = decodeOP_N n.opcode := by
    rw [UInt8.toNat_ofNat', Nat.mod_eq_of_lt (by omega)]
  rw [multisigCounts, back]
  simp only [List.head?_cons, Option.bind_some, Token.number, Option.getD_some, Bool.and_eq_true,
    decide_eq_true_eq, UInt8.le_iff_toNat_le, byteM, byteN, List.length_cons, List.length_append, List.length_map,
    List.length_nil, show UInt8.toNat 1 = 1 from rfl]
  omega

section

variable {tokens : List Token} {vSolutions : List Bytes}

theorem matchTokens_pubkey (wellFormed : ∀ token ∈ tokens, token.WellFormed) :
    matchTokens [OP_PUBKEY, OP_CHECKSIG] tokens [] = some vSolutions ↔ Instance .TX_PUBKEY tokens vSolutions := by
  simp only [matchTokens_cons (show OP_PUBKEY ≠ OP_PUBKEYS by decide),
    matchTokens_cons (show OP_CHECKSIG ≠ OP_PUBKEYS by decide), matchTokens_nil, matchOp_pubkey]
  constructor
  · rintro ⟨key, _, _, rfl, found, checkSig, _, _, rfl, checked, rfl, rfl⟩
    rw [matchOp_opcode (by decide) (by decide) (wellFormed checkSig (by simp))] at checked
    simp only [Option.ite_none_right_eq_some, Option.some.injEq] at found checked
    obtain ⟨size, rfl⟩ := found
    obtain ⟨checks, rfl⟩ := checked
    exact .pubkey size checks
  · intro isInstance
    cases isInstance with
    | @pubkey key checkSig size checks =>
        refine ⟨key, _, [key.operand], rfl, if_pos size, checkSig, _, [key.operand], rfl, ?_, rfl, rfl⟩
        rw [matchOp_opcode (by decide) (by decide) (wellFormed checkSig (by simp)), if_pos checks]

theorem matchTokens_pubkeyhash (wellFormed : ∀ token ∈ tokens, token.WellFormed) :
    matchTokens [OP_DUP, OP_HASH160, OP_PUBKEYHASH, OP_EQUALVERIFY, OP_CHECKSIG] tokens [] = some vSolutions ↔
      Instance .TX_PUBKEYHASH tokens vSolutions := by
  simp only [matchTokens_cons (show OP_DUP ≠ OP_PUBKEYS by decide),
    matchTokens_cons (show OP_HASH160 ≠ OP_PUBKEYS by decide),
    matchTokens_cons (show OP_PUBKEYHASH ≠ OP_PUBKEYS by decide),
    matchTokens_cons (show OP_EQUALVERIFY ≠ OP_PUBKEYS by decide),
    matchTokens_cons (show OP_CHECKSIG ≠ OP_PUBKEYS by decide), matchTokens_nil, matchOp_pubkeyhash]
  constructor
  · rintro ⟨dup, _, _, rfl, first, hash160, _, _, rfl, second, hash, _, _, rfl, third, equalVerify, _, _, rfl, fourth,
      checkSig, _, _, rfl, fifth, rfl, rfl⟩
    rw [matchOp_opcode (by decide) (by decide) (wellFormed dup (by simp))] at first
    rw [matchOp_opcode (by decide) (by decide) (wellFormed hash160 (by simp))] at second
    rw [matchOp_opcode (by decide) (by decide) (wellFormed equalVerify (by simp))] at fourth
    rw [matchOp_opcode (by decide) (by decide) (wellFormed checkSig (by simp))] at fifth
    simp only [Option.ite_none_right_eq_some, Option.some.injEq] at first second third fourth fifth
    obtain ⟨duplicates, rfl⟩ := first
    obtain ⟨hashes, rfl⟩ := second
    obtain ⟨size, rfl⟩ := third
    obtain ⟨compares, rfl⟩ := fourth
    obtain ⟨checks, rfl⟩ := fifth
    exact .pubkeyhash duplicates hashes size compares checks
  · intro isInstance
    cases isInstance with
    | @pubkeyhash dup hash160 hash equalVerify checkSig duplicates hashes size compares checks =>
        refine ⟨dup, _, [], rfl, ?_, hash160, _, [], rfl, ?_, hash, _, [hash.operand], rfl, if_pos size, equalVerify, _,
          [hash.operand], rfl, ?_, checkSig, _, [hash.operand], rfl, ?_, rfl, rfl⟩
        · rw [matchOp_opcode (by decide) (by decide) (wellFormed dup (by simp)), if_pos duplicates]
        · rw [matchOp_opcode (by decide) (by decide) (wellFormed hash160 (by simp)), if_pos hashes]
        · rw [matchOp_opcode (by decide) (by decide) (wellFormed equalVerify (by simp)), if_pos compares]
        · rw [matchOp_opcode (by decide) (by decide) (wellFormed checkSig (by simp)), if_pos checks]

theorem matchTokens_multisig (wellFormed : ∀ token ∈ tokens, token.WellFormed) :
    (matchTokens [OP_SMALLINTEGER, OP_PUBKEYS, OP_SMALLINTEGER, OP_CHECKMULTISIG] tokens [] = some vSolutions ∧
      multisigCounts vSolutions) ↔ Instance .TX_MULTISIG tokens vSolutions := by
  simp only [matchTokens_cons (show OP_SMALLINTEGER ≠ OP_PUBKEYS by decide), matchTokens_keys,
    matchTokens_cons (show OP_CHECKMULTISIG ≠ OP_PUBKEYS by decide), matchTokens_nil, matchOp_smallInteger]
  constructor
  · rintro ⟨⟨m, _, _, rfl, first, keys, n, _, _, rfl, sizes, -, second, checkMultiSig, _, _, rfl, third, rfl, rfl⟩,
      counts⟩
    rw [matchOp_opcode (by decide) (by decide) (wellFormed checkMultiSig (by simp))] at third
    simp only [Option.ite_none_right_eq_some, Option.some.injEq] at first second third
    obtain ⟨small, rfl⟩ := first
    obtain ⟨last, rfl⟩ := second
    obtain ⟨checks, rfl⟩ := third
    obtain ⟨positive, enough, count⟩ := (multisigCounts_iff small last keys).mp counts
    exact .multisig small sizes last checks positive enough count
  · intro isInstance
    cases isInstance with
    | @multisig m n checkMultiSig keys first sizes last checks positive enough count =>
        refine ⟨⟨m, _, [m.number], rfl, if_pos first, keys, n, _, _, rfl, sizes,
          (wellFormed n (by simp)).not_isKey last, if_pos last, checkMultiSig, _,
          m.number :: (keys.map Token.operand ++ [n.number]), rfl, ?_, rfl, rfl⟩,
          (multisigCounts_iff first last keys).mpr ⟨positive, enough, count⟩⟩
        rw [matchOp_opcode (by decide) (by decide) (wellFormed checkMultiSig (by simp)), if_pos checks]
        rfl

end

theorem Instance.type_eq {tokens : List Token} {type other : txnouttype} {vSolutions others : List Bytes}
    (isInstance : Instance type tokens vSolutions) (also : Instance other tokens others) : type = other := by
  have short {key checkSig m : Token} {rest : List Token} (many : 3 ≤ rest.length) :
      [key, checkSig] ≠ m :: rest := by
    intro same
    have length := congrArg List.length same
    simp only [List.length_cons, List.length_nil] at length
    omega
  have several {m n checkMultiSig : Token} {keys : List Token} (positive : 1 ≤ decodeOP_N m.opcode)
      (enough : decodeOP_N m.opcode ≤ decodeOP_N n.opcode) (count : decodeOP_N n.opcode = keys.length) :
      3 ≤ (keys ++ [n, checkMultiSig]).length := by
    simp only [List.length_append, List.length_cons, List.length_nil]
    omega
  have different {dup m : Token} {left right : List Token} (duplicates : dup.opcode = OP_DUP) (small : m.isSmallInteger) :
      dup :: left ≠ m :: right := by
    intro same
    rw [← (List.cons.inj same).1, Token.isSmallInteger_iff, duplicates] at small
    revert small
    decide
  generalize both : tokens = operations at also
  cases isInstance with
  | pubkey _ _ =>
      cases also with
      | pubkey _ _ => rfl
      | pubkeyhash _ _ _ _ _ => exact absurd both (short (by simp))
      | multisig _ _ _ _ positive enough count => exact absurd both (short (several positive enough count))
  | pubkeyhash duplicates _ _ _ _ =>
      cases also with
      | pubkey _ _ => exact absurd both.symm (short (by simp))
      | pubkeyhash _ _ _ _ _ => rfl
      | multisig small _ _ _ _ _ _ => exact absurd both (different duplicates small)
  | multisig small _ _ _ positive enough count =>
      cases also with
      | pubkey _ _ => exact absurd both.symm (short (several positive enough count))
      | pubkeyhash duplicates _ _ _ _ => exact absurd both.symm (different duplicates small)
      | multisig _ _ _ _ _ _ _ => rfl

/-- Solver accepts the scripts that pay to a script hash and the instances of its templates, and nothing else. -/
theorem solver_iff (script : CScript) (typeRet : txnouttype) (vSolutions : List Bytes) :
    script.solver = some (typeRet, vSolutions) ↔
      if script.isPayToScriptHash then typeRet = .TX_SCRIPTHASH ∧ vSolutions = [(script.drop 2).take 20]
      else script.unparsed = [] ∧ Instance typeRet script.tokens vSolutions := by
  have parsed := parses script
  rw [solver]
  split
  · rw [Option.some.injEq, Prod.mk.injEq]
    exact and_congr eq_comm eq_comm
  · simp only [mTemplates, scanTemplates, matchTemplate_eq parsed]
    by_cases whole : script.unparsed = []
    swap
    · simp [whole]
    simp only [whole, true_and, if_true]
    have wellFormed := parsed.wellFormed
    generalize script.tokens = tokens at wellFormed
    constructor
    · intro run
      split at run
      · split at run
        · split at run
          · contradiction
          · rename_i solutions multisig
            split at run
            · contradiction
            · rename_i counts
              cases run
              exact (matchTokens_multisig wellFormed).mp ⟨multisig, by simpa using counts⟩
        · rename_i solutions pubkeyhash
          rw [if_neg (by simp)] at run
          cases run
          exact (matchTokens_pubkeyhash wellFormed).mp pubkeyhash
      · rename_i solutions pubkey
        rw [if_neg (by simp)] at run
        cases run
        exact (matchTokens_pubkey wellFormed).mp pubkey
    · intro isInstance
      have noPubkey (other : typeRet ≠ .TX_PUBKEY) : matchTokens [OP_PUBKEY, OP_CHECKSIG] tokens [] = none := by
        cases found : matchTokens [OP_PUBKEY, OP_CHECKSIG] tokens [] with
        | none => rfl
        | some solutions => exact absurd (isInstance.type_eq ((matchTokens_pubkey wellFormed).mp found)) other
      have noPubkeyhash (other : typeRet ≠ .TX_PUBKEYHASH) :
          matchTokens [OP_DUP, OP_HASH160, OP_PUBKEYHASH, OP_EQUALVERIFY, OP_CHECKSIG] tokens [] = none := by
        cases found : matchTokens [OP_DUP, OP_HASH160, OP_PUBKEYHASH, OP_EQUALVERIFY, OP_CHECKSIG] tokens [] with
        | none => rfl
        | some solutions => exact absurd (isInstance.type_eq ((matchTokens_pubkeyhash wellFormed).mp found)) other
      cases typeRet with
      | TX_NONSTANDARD => cases isInstance
      | TX_SCRIPTHASH => cases isInstance
      | TX_PUBKEY =>
          rw [(matchTokens_pubkey wellFormed).mpr isInstance]
          rfl
      | TX_PUBKEYHASH =>
          rw [noPubkey (by decide), (matchTokens_pubkeyhash wellFormed).mpr isInstance]
          rfl
      | TX_MULTISIG =>
          obtain ⟨found, counts⟩ := (matchTokens_multisig wellFormed).mpr isInstance
          rw [noPubkey (by decide), noPubkeyhash (by decide), found]
          simp [counts]

end CScript

/-! ## Destinations -/

namespace CScript

/-- EncodeOP_N with its assertion. -/
def encodeOP_N (n : Int) : Except Failure UInt8 := do
  require (0 ≤ n ∧ n ≤ 16) (.undefined "assert(n >= 0 && n <= 16)")
  return if n = 0 then OP_0 else UInt8.ofNat (OP_1.toNat + n - 1).toNat

/-- `CScript::SetMultisig`, with the public keys that GetPubKey gives for the keys. -/
def setMultisig (nRequired : Int) (keys : List CPubKey) : Except Failure CScript := do
  let m ← encodeOP_N nRequired
  let n ← encodeOP_N keys.length
  return [m] ++ keys.flatMap (fun key => pushData key.vchPubKey) ++ [n, OP_CHECKMULTISIG]

end CScript

section

variable [ScriptDigests]

/-- ExtractDestinations: the type, the addresses and `nRequiredRet`. -/
def extractDestinations (scriptPubKey : CScript) : Option (txnouttype × List CTxDestination × Int) :=
  match scriptPubKey.solver with
  | none => none
  | some (typeRet, vSolutions) =>
      if typeRet = .TX_MULTISIG then
        let nRequiredRet := ((vSolutions.head?.bind List.head?).getD 0).toNat
        some (typeRet, (vSolutions.drop 1).dropLast.map fun vch => .CKeyID (CPubKey.mk vch).getID, nRequiredRet)
      else (extractDestination scriptPubKey).map fun address => (typeRet, [address], 1)

open CScript

omit [ScriptDigests] in
theorem uint160_littleEndian (hash : BitVec 160) : uint160 (littleEndian 20 hash.toNat) = hash := by
  rw [uint160, if_pos (littleEndian_length 20 _), ofLittleEndian_littleEndian_of_lt hash.isLt, BitVec.ofNat_toNat,
    BitVec.setWidth_eq]

omit [ScriptDigests] in
theorem solver_scriptForKey (keyID : CKeyID) :
    (scriptForKey keyID).solver = some (.TX_PUBKEYHASH, [littleEndian 20 keyID.toNat]) := by
  have length := littleEndian_length 20 keyID.toNat
  let tokens : List Token := [⟨OP_DUP, [], [OP_DUP]⟩, ⟨OP_HASH160, [], [OP_HASH160]⟩,
    ⟨pushOpcode (littleEndian 20 keyID.toNat), littleEndian 20 keyID.toNat, pushData (littleEndian 20 keyID.toNat)⟩, ⟨OP_EQUALVERIFY, [], [OP_EQUALVERIFY]⟩,
    ⟨OP_CHECKSIG, [], [OP_CHECKSIG]⟩]
  have wellFormed : ∀ token ∈ tokens, token.WellFormed := by
    intro token member
    simp only [tokens, List.mem_cons, List.not_mem_nil, or_false] at member
    rcases member with rfl | rfl | rfl | rfl | rfl
    · exact opcode_wellFormed (.inr (by decide))
    · exact opcode_wellFormed (.inr (by decide))
    · exact pushData_wellFormed (by omega)
    · exact opcode_wellFormed (.inr (by decide))
    · exact opcode_wellFormed (.inr (by decide))
  have parsed : Parses (scriptForKey keyID) tokens [] := by
    have whole : Parses (encode tokens ++ []) tokens [] := .of_wellFormed rfl wellFormed
    rwa [List.append_nil] at whole
  have other : (scriptForKey keyID).isPayToScriptHash = false := rfl
  rw [solver_iff, other, if_neg (by decide), parsed.tokens_eq.1, parsed.tokens_eq.2]
  exact ⟨rfl, .pubkeyhash rfl rfl length rfl rfl⟩

omit [ScriptDigests] in
theorem solver_setDestination_script (scriptID : CScriptID) :
    (setDestination (.CScriptID scriptID)).solver = some (.TX_SCRIPTHASH, [littleEndian 20 scriptID.toNat]) := by
  have shape : (setDestination (.CScriptID scriptID)).isPayToScriptHash = true := rfl
  rw [solver_iff, if_pos shape]
  exact ⟨rfl, rfl⟩

theorem extractDestination_setDestination (address : CTxDestination) :
    extractDestination (setDestination address) = if address = .CNoDestination then none else some address := by
  cases address with
  | CNoDestination => rfl
  | CKeyID keyID =>
      rw [extractDestination, setDestination, solver_scriptForKey]
      simp only [uint160_littleEndian, reduceCtorEq, if_false]
  | CScriptID scriptID =>
      rw [extractDestination, solver_setDestination_script]
      simp only [uint160_littleEndian, reduceCtorEq, if_false]

omit [ScriptDigests] in
theorem encodeOP_N_eq {n : Nat} (small : n ≤ 16) : ∃ opcode, encodeOP_N n = .ok opcode ∧
    (opcode = OP_0 ∨ (OP_1 ≤ opcode ∧ opcode ≤ OP_16)) ∧ decodeOP_N opcode = n := by
  have range : (0 : Int) ≤ n ∧ (n : Int) ≤ 16 := by omega
  rw [encodeOP_N, require, if_pos range]
  refine ⟨_, rfl, ?_⟩
  interval_cases n <;> decide

/-- The keys of a script that SetMultisig makes come back in order, with the number of those that have to sign. -/
theorem extractDestinations_setMultisig {m : Nat} {keys : List CPubKey} (positive : 1 ≤ m) (enough : m ≤ keys.length)
    (few : keys.length ≤ 16) (valid : ∀ key ∈ keys, key.isValid) :
    ∃ script, setMultisig m keys = .ok script ∧
      extractDestinations script = some (txnouttype.TX_MULTISIG, keys.map fun key => CTxDestination.CKeyID key.getID, (m : Int)) := by
  obtain ⟨first, encodedM, smallM, decodedM⟩ := encodeOP_N_eq (Nat.le_trans enough few)
  obtain ⟨last, encodedN, smallN, decodedN⟩ := encodeOP_N_eq few
  have plain {opcode : UInt8} (small : opcode = OP_0 ∨ (OP_1 ≤ opcode ∧ opcode ≤ OP_16)) :
      opcode = OP_0 ∨ OP_PUSHDATA4 < opcode :=
    small.imp_right fun range => UInt8.lt_of_lt_of_le (by decide) range.1
  have size {key : CPubKey} (member : key ∈ keys) : key.vchPubKey.length = 33 ∨ key.vchPubKey.length = 65 := by
    simpa [CPubKey.isValid] using valid key member
  let operands : List Token := keys.map fun key => ⟨pushOpcode key.vchPubKey, key.vchPubKey, pushData key.vchPubKey⟩
  let tokens : List Token := ⟨first, [], [first]⟩ :: (operands ++ [⟨last, [], [last]⟩,
    ⟨OP_CHECKMULTISIG, [], [OP_CHECKMULTISIG]⟩])
  have wellFormed : ∀ token ∈ tokens, token.WellFormed := by
    intro token member
    simp only [tokens, List.mem_cons, List.mem_append, List.not_mem_nil, or_false] at member
    rcases member with rfl | member | rfl | rfl
    · exact opcode_wellFormed (plain smallM)
    · obtain ⟨key, inside, rfl⟩ := List.mem_map.mp member
      have := size inside
      exact pushData_wellFormed (by omega)
    · exact opcode_wellFormed (plain smallN)
    · exact opcode_wellFormed (.inr (by decide))
  have bytes : encode operands = keys.flatMap fun key => pushData key.vchPubKey := by
    rw [encode, List.flatMap_map]
  have built : encode tokens = [first] ++ keys.flatMap (fun key => pushData key.vchPubKey) ++ [last, OP_CHECKMULTISIG] := by
    rw [← bytes]
    simp [tokens, encode]
  have parsed : Parses (encode tokens ++ []) tokens [] := .of_wellFormed rfl wellFormed
  rw [List.append_nil] at parsed
  have other : ¬ (encode tokens).isPayToScriptHash := by
    have opcode : first ≠ OP_HASH160 := by
      rintro rfl
      exact absurd smallM (by decide)
    rw [built]
    simp [isPayToScriptHash, opcode]
  have recognized : (encode tokens).solver = some (.TX_MULTISIG,
      [UInt8.ofNat m] :: (keys.map CPubKey.vchPubKey ++ [[UInt8.ofNat keys.length]])) := by
    rw [solver_iff, if_neg other, parsed.tokens_eq.1, parsed.tokens_eq.2]
    refine ⟨rfl, ?_⟩
    have sizes : ∀ key ∈ operands, key.isKey := by
      intro key member
      obtain ⟨source, inside, rfl⟩ := List.mem_map.mp member
      have := size inside
      simp [Token.isKey]
      omega
    have found : Instance .TX_MULTISIG tokens ([UInt8.ofNat (decodeOP_N first)] ::
        (operands.map Token.operand ++ [[UInt8.ofNat (decodeOP_N last)]])) :=
      .multisig (Token.isSmallInteger_iff.mpr smallM) sizes (Token.isSmallInteger_iff.mpr smallN) rfl
        (by rw [decodedM]; exact positive) (by rw [decodedM, decodedN]; exact enough)
        (by rw [decodedN, List.length_map])
    rw [decodedM, decodedN, List.map_map] at found
    exact found
  refine ⟨encode tokens, ?_, ?_⟩
  · rw [setMultisig, encodedM, ok_bind, encodedN, ok_bind, built]
    rfl
  · have number : (UInt8.ofNat m).toNat = m := by
      rw [UInt8.toNat_ofNat', Nat.mod_eq_of_lt (by omega)]
    rw [extractDestinations, recognized]
    simp only [if_true, List.head?_cons, Option.bind_some, Option.getD_some, number, List.drop_succ_cons, List.drop_zero,
      List.dropLast_concat, List.map_map]
    rfl

/-- What Solver accepts, and what the extraction of destinations makes of the scripts that are made for them. -/
theorem solver_templates :
    (∀ (script : CScript) (typeRet : txnouttype) (vSolutions : List Bytes),
      script.solver = some (typeRet, vSolutions) ↔
        if script.isPayToScriptHash then typeRet = .TX_SCRIPTHASH ∧ vSolutions = [(script.drop 2).take 20]
        else script.unparsed = [] ∧ Instance typeRet script.tokens vSolutions) ∧
    (∀ address, extractDestination (setDestination address) =
      if address = .CNoDestination then none else some address) ∧
    ∀ (m : Nat) (keys : List CPubKey), 1 ≤ m → m ≤ keys.length → keys.length ≤ 16 → (∀ key ∈ keys, key.isValid) →
      ∃ script, setMultisig m keys = .ok script ∧
        extractDestinations script = some (txnouttype.TX_MULTISIG, keys.map fun key => CTxDestination.CKeyID key.getID, (m : Int)) :=
  ⟨solver_iff, extractDestination_setDestination, fun _ _ => extractDestinations_setMultisig⟩

end

open Sample CScript

theorem solver_templates_one : ∃ script, setMultisig 1 [⟨List.replicate 33 2⟩] = .ok script ∧
    extractDestinations script = some (.TX_MULTISIG, [.CKeyID (CPubKey.getID ⟨List.replicate 33 2⟩)], 1) :=
  solver_templates.2.2 1 [⟨List.replicate 33 2⟩] (by decide) (by decide) (by decide) (by decide)

/-- With no signatures required, the script is not recognized, and nothing is extracted for no destination. -/
theorem solver_templates_none :
    (∀ script, setMultisig 0 [⟨List.replicate 33 2⟩] = .ok script → extractDestinations script = none) ∧
      extractDestination (setDestination .CNoDestination) ≠ some .CNoDestination := by
  constructor
  · rintro script ⟨⟩
    decide
  · decide

end BitCrystal
