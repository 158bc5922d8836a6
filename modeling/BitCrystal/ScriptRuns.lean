import BitCrystal.MultiSig
import BitCrystal.Templates

namespace BitCrystal

open Data CScript

/-! # Running scripts operation by operation -/

namespace ScriptState

variable [ScriptDigests] {state : ScriptState} {verifier : Verifier} {token : Token} {rest : CScript}

theorem step_token (wellFormed : token.WellFormed) (position : state.pc = token.bytes ++ rest)
    (small : token.operand.length ≤ MAX_SCRIPT_ELEMENT_SIZE) (count : OP_16 < token.opcode → state.nOpCount < 201)
    (enabled : isDisabled token.opcode = false) :
    (state.step verifier).result =
      (({ state with pc := rest, nOpCount := if OP_16 < token.opcode then state.nOpCount + 1 else state.nOpCount }
        : ScriptState).execute verifier token.opcode token.operand).result >>= limit := by
  have counted : OP_16 < token.opcode →
      (if OP_16 < token.opcode then state.nOpCount + 1 else state.nOpCount) ≤ 201 := fun above => by
    rw [if_pos above]
    exact count above
  have read : state.fetch = .ok (token.opcode, token.operand,
      { state with pc := rest, nOpCount := if OP_16 < token.opcode then state.nOpCount + 1 else state.nOpCount }) := by
    simp only [fetch, position, wellFormed rest, expect, ok_bind]
    rw [require_of small, ok_bind, require_of counted, ok_bind, require_of (by rw [enabled]; decide)]
    rfl
  simp only [step, Logged.result_bind, Logged.result_lift, read, ok_bind]

omit [ScriptDigests] in
theorem limit_ok (room : state.stack.length + state.altstack.length ≤ 1000) : state.limit = .ok state := by
  rw [limit, require_of room]
  rfl

omit [ScriptDigests] in
theorem push_enabled {opcode : UInt8} (push : opcode ≤ OP_16) : isDisabled opcode = false :=
  forall_byte (p := fun opcode => opcode ≤ OP_16 → isDisabled opcode = false) (by decide +kernel) opcode push

inductive Pushes : Token → Bytes → Prop
  | data {token : Token} (push : token.opcode ≤ OP_PUSHDATA4) : Pushes token token.operand
  | number {token : Token} (plain : token.operand = []) (number : OP_1 ≤ token.opcode ∧ token.opcode ≤ OP_16) :
      Pushes token (CBigNum.getvch (decodeOP_N token.opcode))

omit [ScriptDigests] in
theorem Pushes.opcode_le {vch : Bytes} (pushes : Pushes token vch) : token.opcode ≤ OP_16 := by
  cases pushes with
  | data push => exact UInt8.le_trans push (by decide)
  | number _ number => exact number.2

theorem Pushes.execute {vch : Bytes} (pushes : Pushes token vch) (verifier : Verifier) (state : ScriptState)
    (straight : state.vfExec = []) :
    (state.execute verifier token.opcode token.operand).result = .ok { state with stack := vch :: state.stack } := by
  have executes : state.fExec = true := by
    rw [fExec, straight]
    rfl
  cases pushes with
  | data push =>
      rw [execute_data verifier executes push]
      rfl
  | number plain number =>
      have nonzero : token.opcode ≠ OP_0 := by
        intro zero
        rw [zero] at number
        exact absurd number.1 (by decide)
      have large : 81 ≤ token.opcode.toNat := UInt8.le_iff_toNat_le.mp number.1
      have value : ((token.opcode.toNat : Int) - (OP_1.toNat - 1 : Int)) = (decodeOP_N token.opcode : Int) := by
        rw [decodeOP_N, if_neg nonzero]
        simp only [OP_1, UInt8.reduceToNat]
        omega
      rw [plain, execute_number verifier executes (.inr number), value]
      rfl

theorem step_pushes {vch : Bytes} (pushes : Pushes token vch) (wellFormed : token.WellFormed)
    (position : state.pc = token.bytes ++ rest) (small : token.operand.length ≤ MAX_SCRIPT_ELEMENT_SIZE)
    (straight : state.vfExec = []) (room : state.stack.length + state.altstack.length < 1000) :
    (state.step verifier).result = .ok { state with pc := rest, stack := vch :: state.stack } := by
  have low : ¬OP_16 < token.opcode := UInt8.not_lt.mpr pushes.opcode_le
  rw [step_token wellFormed position small (fun above => absurd above low) (push_enabled pushes.opcode_le), if_neg low,
    pushes.execute verifier { state with pc := rest } straight, ok_bind]
  refine limit_ok ?_
  simp only [List.length_cons]
  omega

theorem loop_pushes_eq {tokens : List Token} {values : List Bytes} (pushes : List.Forall₂ Pushes tokens values)
    (wellFormed : ∀ token ∈ tokens, token.WellFormed)
    (small : ∀ token ∈ tokens, token.operand.length ≤ MAX_SCRIPT_ELEMENT_SIZE) (turns : Nat)
    (position : state.pc = encode tokens ++ rest) (straight : state.vfExec = [])
    (room : state.stack.length + state.altstack.length + values.length ≤ 1000) :
    (state.loop verifier (turns + tokens.length)).result =
      (({ state with pc := rest, stack := values.reverse ++ state.stack } : ScriptState).loop verifier turns).result := by
  induction pushes generalizing state with
  | nil =>
      rw [encode_nil, List.nil_append] at position
      rw [← position]
      rfl
  | @cons token vch tokens values pushed _ ih =>
      rw [encode_cons, List.append_assoc] at position
      rw [List.length_cons] at room
      have wellFormed' := wellFormed token List.mem_cons_self
      have left : state.pc ≠ [] := by
        rw [position]
        exact List.append_ne_nil_of_left_ne_nil wellFormed'.bytes_ne_nil _
      have turn : (state.step verifier).result =
          .ok { state with pc := encode tokens ++ rest, stack := vch :: state.stack } :=
        step_pushes pushed wellFormed' position (small token List.mem_cons_self) straight (by omega)
      have further : (({ state with pc := encode tokens ++ rest, stack := vch :: state.stack } : ScriptState).loop
          verifier (turns + tokens.length)).result = _ :=
        ih (fun later member => wellFormed later (List.mem_cons_of_mem token member))
          (fun later member => small later (List.mem_cons_of_mem token member)) rfl straight
          (by simp only [List.length_cons]; omega)
      rw [List.length_cons, ← Nat.add_assoc, loop, if_neg left, Logged.result_bind, turn, ok_bind, further,
        List.reverse_cons, List.append_assoc, List.singleton_append]

theorem step_counted {opcode : UInt8} (wellFormed : token.WellFormed) (position : state.pc = token.bytes ++ rest)
    (operation : token.opcode = opcode) (high : OP_16 < opcode) (enabled : isDisabled opcode = false)
    (straight : state.vfExec = []) (count : state.nOpCount < 201) :
    (state.step verifier).result =
      (({ state with pc := rest, nOpCount := state.nOpCount + 1 } : ScriptState).switch verifier opcode).result >>= limit := by
  subst operation
  have executes : ({ state with pc := rest, nOpCount := state.nOpCount + 1 } : ScriptState).fExec = true := by
    rw [fExec, straight]
    rfl
  have notPush : ¬token.opcode ≤ OP_PUSHDATA4 := UInt8.not_le.mpr (UInt8.lt_trans (by decide) high)
  have empty : token.operand.length ≤ MAX_SCRIPT_ELEMENT_SIZE := by
    rw [wellFormed.operand_eq_nil (.inr (UInt8.not_le.mp notPush))]
    decide
  rw [step_token wellFormed position empty (fun _ => count) enabled, if_pos high, execute,
    if_neg fun both => notPush both.2, if_pos (.inl executes)]

theorem loop_end (turns : Nat) (ended : state.pc = []) : (state.loop verifier turns).result = .ok state := by
  cases turns with
  | zero => rfl
  | succ turns =>
      rw [loop, if_pos ended]
      rfl

end ScriptState

/-! ## The length of scripts -/

namespace CScript

theorem getOp_length_le {pc data next : Bytes} {opcode : UInt8} (found : getOp pc = some (opcode, data, next)) :
    pc.length ≤ data.length + next.length + 5 := by
  have pushed {width : Nat} (narrow : width ≤ 4) {pc : Bytes} {label : UInt8}
      (push : pushOperand label width pc = some (opcode, data, next)) : pc.length ≤ data.length + next.length + 4 := by
    simp only [pushOperand, Option.ite_none_left_eq_some, Option.some.injEq, Prod.mk.injEq] at push
    obtain ⟨-, -, -, rfl, rfl⟩ := push
    rw [← List.length_append, List.take_append_drop, List.length_drop]
    omega
  cases pc with
  | nil => contradiction
  | cons first pc =>
      rw [List.length_cons]
      simp only [getOp] at found
      split_ifs at found with direct short one two four
      · simp only [Option.some.injEq, Prod.mk.injEq] at found
        obtain ⟨-, rfl, rfl⟩ := found
        rw [← List.length_append, List.take_append_drop]
        omega
      · have length := pushed (by decide) found
        omega
      · have length := pushed (by decide) found
        omega
      · have length := pushed (by decide) found
        omega
      · simp only [Option.some.injEq, Prod.mk.injEq] at found
        obtain ⟨-, -, rfl⟩ := found
        omega

theorem Token.WellFormed.length_le {token : Token} (wellFormed : token.WellFormed) :
    token.bytes.length ≤ token.operand.length + 5 := by
  have length := getOp_length_le (wellFormed [])
  rwa [List.append_nil, List.length_nil, Nat.add_zero] at length

theorem encode_length_le {tokens : List Token} {size : Nat} (wellFormed : ∀ token ∈ tokens, token.WellFormed)
    (small : ∀ token ∈ tokens, token.operand.length ≤ size) : (encode tokens).length ≤ tokens.length * (size + 5) := by
  induction tokens with
  | nil => exact Nat.zero_le _
  | cons token tokens ih =>
      have first := (wellFormed token List.mem_cons_self).length_le
      have operand := small token List.mem_cons_self
      have others := ih (fun later member => wellFormed later (List.mem_cons_of_mem token member))
        fun later member => small later (List.mem_cons_of_mem token member)
      rw [encode_cons, List.length_append, List.length_cons, Nat.succ_mul]
      omega

end CScript

/-! ## Scripts of pushes -/

/-- PushAll: the elements from the bottom of the stack to its top. -/
def pushAll (values : Stack) : CScript := values.reverse.foldl (fun result v => result ++ pushData v) []

/-- The operation that pushes `vch`. -/
def pushToken (vch : Bytes) : Token := ⟨pushOpcode vch, vch, pushData vch⟩

theorem pushAll_eq (values : Stack) : pushAll values = encode (values.reverse.map pushToken) := by
  have append (script : CScript) (values : List Bytes) :
      values.foldl (fun result v => result ++ pushData v) script = script ++ encode (values.map pushToken) := by
    induction values generalizing script with
    | nil => exact (List.append_nil script).symm
    | cons v values ih =>
        rw [List.foldl_cons, ih, List.map_cons, encode_cons, List.append_assoc]
        rfl
  exact append [] values.reverse

theorem pushToken_wellFormed {values : Stack} (small : Small values) :
    ∀ token ∈ values.reverse.map pushToken, token.WellFormed ∧ token.operand.length ≤ MAX_SCRIPT_ELEMENT_SIZE := by
  intro token member
  obtain ⟨v, inside, rfl⟩ := List.mem_map.mp member
  have bound : v.length ≤ 520 := small v (List.mem_reverse.mp inside)
  exact ⟨pushData_wellFormed (by omega), bound⟩

theorem evalScript_ok [ScriptDigests] {verifier : Verifier} {stack : Stack} {script : CScript} {last : ScriptState}
    (short : script.length ≤ 10000)
    (run : ((ScriptState.start stack script).loop verifier script.length).result = .ok last)
    (closed : last.vfExec = []) : (evalScript verifier stack script).result = .ok last.stack := by
  simp only [evalScript, Logged.result_bind, Logged.result_lift, Logged.result_pure, Logged.mapError_eq_ok.mpr run]
  rw [require_of short, ok_bind, ok_bind, require_of closed]
  rfl

theorem evalScript_pushAll [ScriptDigests] (verifier : Verifier) {values : Stack} (small : Small values)
    (few : values.length ≤ 19) : (evalScript verifier [] (pushAll values)).result = .ok values := by
  have tokens := pushToken_wellFormed small
  have count : (values.reverse.map pushToken).length = values.length := by
    rw [List.length_map, List.length_reverse]
  have length : (pushAll values).length ≤ 10000 := by
    have total : (encode (values.reverse.map pushToken)).length ≤ _ :=
      encode_length_le (fun token member => (tokens token member).1) fun token member => (tokens token member).2
    rw [count, ← pushAll_eq] at total
    have size : values.length * (MAX_SCRIPT_ELEMENT_SIZE + 5) ≤ 19 * 525 := Nat.mul_le_mul_right 525 few
    omega
  have pushes : List.Forall₂ ScriptState.Pushes (values.reverse.map pushToken) values.reverse := by
    rw [List.forall₂_map_left_iff]
    exact List.forall₂_same.mpr fun v _ => .data (pushOpcode_le v)
  obtain ⟨turns, room⟩ : ∃ turns, (pushAll values).length = turns + (values.reverse.map pushToken).length := by
    have parsed : Parses (pushAll values) (values.reverse.map pushToken) [] := by
      have whole := Parses.of_wellFormed (show getOp [] = none from rfl) fun token member => (tokens token member).1
      rwa [List.append_nil, ← pushAll_eq] at whole
    exact ⟨_, (Nat.sub_add_cancel parsed.length_le).symm⟩
  have position : (ScriptState.start [] (pushAll values)).pc = encode (values.reverse.map pushToken) ++ [] := by
    rw [List.append_nil, ← pushAll_eq]
    rfl
  have space : (ScriptState.start [] (pushAll values)).stack.length +
      (ScriptState.start [] (pushAll values)).altstack.length + values.reverse.length ≤ 1000 := by
    simp only [ScriptState.start, List.length_nil, List.length_reverse]
    omega
  have run : ((ScriptState.start [] (pushAll values)).loop verifier _).result = _ :=
    ScriptState.loop_pushes_eq pushes (fun token member => (tokens token member).1)
      (fun token member => (tokens token member).2) turns position rfl space
  rw [← room, ScriptState.loop_end turns rfl] at run
  have result := evalScript_ok length run rfl
  rwa [List.reverse_reverse, ScriptState.start, List.append_nil] at result

theorem isPushOnlyLoop_encode {tokens : List Token} (wellFormed : ∀ token ∈ tokens, token.WellFormed)
    (pushes : ∀ token ∈ tokens, token.opcode ≤ OP_16) (room : Nat) : isPushOnlyLoop room (encode tokens) = true := by
  induction tokens generalizing room with
  | nil =>
      cases room with
      | zero => rfl
      | succ room => exact if_pos rfl
  | cons token tokens ih =>
      have first := wellFormed token List.mem_cons_self
      have low : ¬OP_16 < token.opcode := UInt8.not_lt.mpr (pushes token List.mem_cons_self)
      cases room with
      | zero => rfl
      | succ room =>
          have left : token.bytes ++ encode tokens ≠ [] := List.append_ne_nil_of_left_ne_nil first.bytes_ne_nil _
          rw [encode_cons, isPushOnlyLoop, if_neg left, first]
          simp only [if_neg low]
          exact ih (fun later member => wellFormed later (List.mem_cons_of_mem token member))
            (fun later member => pushes later (List.mem_cons_of_mem token member)) room

theorem isPushOnly_pushAll {values : Stack} (small : Small values) : (pushAll values).isPushOnly = true := by
  rw [isPushOnly, pushAll_eq]
  refine isPushOnlyLoop_encode (fun token member => (pushToken_wellFormed small token member).1) (fun token member => ?_) _
  obtain ⟨v, -, rfl⟩ := List.mem_map.mp member
  exact UInt8.le_trans (pushOpcode_le v) (by decide)

/-! ## Multi-signature scripts -/

/-- The signatures with which a multi-signature script succeeds: by keys in the order of the keys,
and none of them in the script. -/
structure Unlocks (verifier : Verifier) (script : CScript) (sigs keys : List Bytes) : Prop where
  matching : Matching (verifier.passes script) sigs keys
  outside : ∀ sig ∈ sigs, script.findAndDelete (pushData sig) = script

theorem countAt_number {stack : Stack} {k n : Nat} (found : stack[k]? = some (CBigNum.getvch n)) (small : n ≤ 16) :
    ScriptState.countAt stack (k + 1) = .ok n := by
  have range : (n : Int).natAbs < 2 ^ 31 := by omega
  rw [ScriptState.countAt, Stack.stacktop_succ found, ok_bind, castToBigNum_getvch, if_pos range, ok_bind]
  have positive : (0 : Int) ≤ n := by omega
  have below : ¬CBigNum.INT_MAX < (n : Int) := by
    rw [CBigNum.INT_MAX]
    omega
  rw [CBigNum.getint, if_pos positive, if_neg below]
  rfl

/-- The operations of a script that Solver takes for a multi-signature script. -/
structure MultisigTokens (script : CScript) (m : UInt8) (keys : List Bytes) where
  first : Token
  keyTokens : List Token
  last : Token
  checkMultiSig : Token
  parsed : Parses script (first :: (keyTokens ++ [last]) ++ [checkMultiSig]) []
  firstOpcode : OP_1 ≤ first.opcode ∧ first.opcode ≤ OP_16
  lastOpcode : OP_1 ≤ last.opcode ∧ last.opcode ≤ OP_16
  required : decodeOP_N first.opcode = m.toNat
  listed : decodeOP_N last.opcode = keys.length
  keys_eq : keys = keyTokens.map Token.operand
  sizes : ∀ key ∈ keyTokens, key.isKey
  checks : checkMultiSig.opcode = OP_CHECKMULTISIG
  positive : 1 ≤ m.toNat
  enough : m.toNat ≤ keys.length
  few : keys.length ≤ 16

theorem number_opcode {token : Token} (small : token.isSmallInteger) (positive : 1 ≤ decodeOP_N token.opcode) :
    OP_1 ≤ token.opcode ∧ token.opcode ≤ OP_16 := by
  rcases Token.isSmallInteger_iff.mp small with zero | range
  · rw [zero] at positive
    exact absurd positive (by decide)
  · exact range

theorem exists_multisigTokens {script : CScript} {m : UInt8} {keys : List Bytes} {n : Bytes}
    (solved : script.solver = some (.TX_MULTISIG, [m] :: (keys ++ [n]))) : Nonempty (MultisigTokens script m keys) := by
  have recognized := (solver_iff script _ _).mp solved
  split at recognized
  · cases recognized.1
  · obtain ⟨complete, isInstance⟩ := recognized
    have parsed := parses script
    rw [complete] at parsed
    generalize tokens : script.tokens = operations at isInstance parsed
    generalize data : [m] :: (keys ++ [n]) = vSolutions at isInstance
    cases isInstance with
    | multisig first sizes last checks positive enough count =>
        rename_i mToken nToken checkMultiSig keyTokens
        obtain ⟨required, listed⟩ := List.cons.inj data
        have keys_eq := List.append_inj_left' listed rfl
        have few := Token.number_le last
        have length : keys.length = keyTokens.length := by rw [keys_eq, List.length_map]
        have number : decodeOP_N mToken.opcode = m.toNat := by
          rw [(List.cons.inj required).1, UInt8.toNat_ofNat', Nat.mod_eq_of_lt (by omega)]
        rw [List.append_cons] at parsed
        exact ⟨mToken, keyTokens, nToken, checkMultiSig, parsed, number_opcode first positive,
          number_opcode last (by omega), number, by omega, keys_eq, sizes, checks, by omega, by omega, by omega⟩

namespace MultisigTokens

variable {script : CScript} {m : UInt8} {keys : List Bytes} (operations : MultisigTokens script m keys)

/-- The operations before OP_CHECKMULTISIG. -/
def arguments : List Token := operations.first :: (operations.keyTokens ++ [operations.last])

theorem wellFormed : ∀ token ∈ operations.arguments, token.WellFormed :=
  fun token member => operations.parsed.wellFormed token (List.mem_append_left _ member)

theorem checkMultiSig_wellFormed : operations.checkMultiSig.WellFormed :=
  operations.parsed.wellFormed _ (List.mem_append_right _ List.mem_cons_self)

theorem plain {token : Token} (member : token ∈ operations.arguments) (number : OP_1 ≤ token.opcode) : token.operand = [] :=
  (operations.wellFormed token member).operand_eq_nil (.inr (UInt8.lt_of_lt_of_le (by decide) number))

theorem small : ∀ token ∈ operations.arguments, token.operand.length ≤ 120 := by
  intro token member
  rcases List.mem_cons.mp member with rfl | later
  · rw [operations.plain member operations.firstOpcode.1]
    decide
  · rcases List.mem_append.mp later with key | last
    · have size := operations.sizes token key
      simp only [Token.isKey, Bool.and_eq_true, decide_eq_true_eq] at size
      exact size.2
    · rw [List.mem_singleton.mp last] at member ⊢
      rw [operations.plain member operations.lastOpcode.1]
      decide

theorem isKey_opcode {token : Token} (wellFormed : token.WellFormed) (key : token.isKey) : token.opcode ≤ OP_PUSHDATA4 := by
  by_contra above
  have none := wellFormed.operand_eq_nil (.inr (UInt8.not_le.mp above))
  simp [Token.isKey, none] at key

theorem pushes : List.Forall₂ ScriptState.Pushes operations.arguments
    (CBigNum.getvch m.toNat :: (keys ++ [CBigNum.getvch keys.length])) := by
  have wellFormed := operations.wellFormed
  have first : ScriptState.Pushes operations.first (CBigNum.getvch m.toNat) := by
    rw [← operations.required]
    exact .number (operations.plain List.mem_cons_self operations.firstOpcode.1) operations.firstOpcode
  have member : operations.last ∈ operations.arguments :=
    List.mem_cons_of_mem _ (List.mem_append_right _ List.mem_cons_self)
  have last : ScriptState.Pushes operations.last (CBigNum.getvch keys.length) := by
    rw [← operations.listed]
    exact .number (operations.plain member operations.lastOpcode.1) operations.lastOpcode
  have listed : List.Forall₂ ScriptState.Pushes operations.keyTokens (operations.keyTokens.map Token.operand) := by
    rw [List.forall₂_map_right_iff]
    refine List.forall₂_same.mpr fun key inside => .data ?_
    have present : key ∈ operations.arguments := List.mem_cons_of_mem _ (List.mem_append_left _ inside)
    exact isKey_opcode (wellFormed key present) (operations.sizes key inside)
  rw [← operations.keys_eq] at listed
  exact .cons first (List.rel_append listed (.cons last .nil))

theorem script_eq : script = encode operations.arguments ++ operations.checkMultiSig.bytes := by
  have whole := operations.parsed.eq_encode
  rw [List.append_nil, encode, List.flatMap_append, List.flatMap_singleton] at whole
  exact whole

theorem operand_eq_nil : operations.checkMultiSig.operand = [] :=
  operations.checkMultiSig_wellFormed.operand_eq_nil (.inr (by rw [operations.checks]; decide))

theorem script_length (operations : MultisigTokens script m keys) : script.length ≤ 10000 := by
  have total := encode_length_le operations.wellFormed operations.small
  have last := operations.checkMultiSig_wellFormed.length_le
  have few := operations.few
  have count : operations.arguments.length = keys.length + 2 := by
    rw [operations.pushes.length_eq]
    simp
  rw [operations.operand_eq_nil, List.length_nil] at last
  rw [count] at total
  rw [operations.script_eq, List.length_append]
  omega

end MultisigTokens

theorem opCheckMultiSig_unlocks {verifier : Verifier} {script : CScript} {keys sigs : List Bytes}
    (fewer : sigs.length ≤ keys.length) (few : keys.length ≤ 16) (unlocks : Unlocks verifier script sigs keys) (below : Stack) :
    ((⟨[], script, [], CBigNum.getvch keys.length :: keys.reverse ++ CBigNum.getvch sigs.length :: sigs.reverse ++ [] :: below,
      [], 1⟩ : ScriptState).opCheckMultiSig verifier OP_CHECKMULTISIG).result =
      .ok ⟨[], script, [], vchTrue :: below, [], 1 + keys.length⟩ := by
  let state : ScriptState := ⟨[], script, [],
    CBigNum.getvch keys.length :: keys.reverse ++ CBigNum.getvch sigs.length :: sigs.reverse ++ [] :: below, [], 1⟩
  let arguments : MultiSigArguments state :=
    { vchKeysCount := CBigNum.getvch keys.length
      keys := keys.reverse
      vchSigsCount := CBigNum.getvch sigs.length
      sigs := sigs.reverse
      rest := [] :: below
      stack_eq := rfl
      keysCount := by
        rw [List.length_reverse]
        exact countAt_number rfl few
      sigsCount := by
        rw [List.length_reverse, List.length_reverse, Nat.add_comm 2]
        exact countAt_number (by simp [state]) (Nat.le_trans fewer few)
      keys_le := by rw [List.length_reverse]; omega
      sigs_le := by rw [List.length_reverse, List.length_reverse]; exact fewer
      nOpCount_le := by rw [List.length_reverse]; simp only [state]; omega }
  have scriptCode : arguments.scriptCode = script := by
    have drop (dropped : List Bytes) (outside : ∀ sig ∈ dropped, script.findAndDelete (pushData sig) = script) :
        dropped.foldl (fun scriptCode vchSig => findAndDelete scriptCode (pushData vchSig)) script = script := by
      induction dropped with
      | nil => rfl
      | cons sig dropped ih =>
          rw [List.foldl_cons, outside sig List.mem_cons_self]
          exact ih fun later member => outside later (List.mem_cons_of_mem sig member)
    exact drop sigs.reverse fun sig member => unlocks.outside sig (List.mem_reverse.mp member)
  have matched : arguments.Matched verifier := by
    rw [MultiSigArguments.Matched, scriptCode]
    exact unlocks.matching.reverse
  have result := arguments.opCheckMultiSig_result verifier OP_CHECKMULTISIG
  have notVerify : decide (OP_CHECKMULTISIG = OP_CHECKMULTISIGVERIFY) = false := by decide
  have length : arguments.keys.length = keys.length := List.length_reverse
  rw [notVerify, decide_eq_true matched, length] at result
  exact result

theorem evalScript_multisig [ScriptDigests] {verifier : Verifier} {script : CScript} {m : UInt8} {keys sigs : List Bytes}
    {n : Bytes} {below : Stack} (solved : script.solver = some (.TX_MULTISIG, [m] :: (keys ++ [n])))
    (count : sigs.length = m.toNat) (unlocks : Unlocks verifier script sigs keys) (room : below.length ≤ 900) :
    (evalScript verifier (sigs.reverse ++ [] :: below) script).result = .ok (vchTrue :: below) := by
  obtain ⟨operations⟩ := exists_multisigTokens solved
  have enough := operations.enough
  have few := operations.few
  have ended := opCheckMultiSig_unlocks (by omega) few unlocks below
  obtain ⟨turns, size⟩ : ∃ turns, script.length = turns + 1 + operations.arguments.length := by
    have length : (operations.arguments ++ [operations.checkMultiSig]).length ≤ script.length := operations.parsed.length_le
    rw [List.length_append, List.length_singleton] at length
    exact ⟨script.length - operations.arguments.length - 1, by omega⟩
  have space : (sigs.reverse ++ [] :: below).length + ([] : Stack).length +
      (CBigNum.getvch m.toNat :: (keys ++ [CBigNum.getvch keys.length])).length ≤ 1000 := by
    simp only [List.length_append, List.length_cons, List.length_reverse, List.length_nil]
    omega
  have pushed : ((ScriptState.start (sigs.reverse ++ [] :: below) script).loop verifier
      (turns + 1 + operations.arguments.length)).result = _ :=
    ScriptState.loop_pushes_eq operations.pushes operations.wellFormed
      (fun token member => Nat.le_trans (operations.small token member) (by decide)) (turns + 1) operations.script_eq rfl
      space
  have stack_eq : (CBigNum.getvch m.toNat :: (keys ++ [CBigNum.getvch keys.length])).reverse ++ (sigs.reverse ++ [] :: below) =
      CBigNum.getvch keys.length :: keys.reverse ++ CBigNum.getvch sigs.length :: sigs.reverse ++ [] :: below := by
    rw [count]
    simp
  rw [ScriptState.start, stack_eq] at pushed
  have turn : ((⟨operations.checkMultiSig.bytes, script, [],
      CBigNum.getvch keys.length :: keys.reverse ++ CBigNum.getvch sigs.length :: sigs.reverse ++ [] :: below, [], 0⟩ :
        ScriptState).step verifier).result = .ok ⟨[], script, [], vchTrue :: below, [], 1 + keys.length⟩ := by
    have small : (vchTrue :: below).length + ([] : Stack).length ≤ 1000 := by
      simp only [List.length_cons, List.length_nil]
      omega
    rw [ScriptState.step_counted operations.checkMultiSig_wellFormed (List.append_nil _).symm operations.checks (by decide)
      (by decide) rfl (by decide : 0 < 201)]
    show (ScriptState.opCheckMultiSig verifier OP_CHECKMULTISIG _).result >>= ScriptState.limit = _
    rw [ended, ok_bind]
    exact ScriptState.limit_ok small
  have left : operations.checkMultiSig.bytes ≠ [] := operations.checkMultiSig_wellFormed.bytes_ne_nil
  have whole : ((ScriptState.start (sigs.reverse ++ [] :: below) script).loop verifier script.length).result =
      .ok ⟨[], script, [], vchTrue :: below, [], 1 + keys.length⟩ := by
    rw [size, ScriptState.start, pushed, ScriptState.loop, if_neg left, Logged.result_bind, turn, ok_bind]
    exact ScriptState.loop_end turns rfl
  exact evalScript_ok operations.script_length whole rfl

/-! ## Pay-to-script-hash -/

theorem opDigest_hash160 [ScriptDigests] (vch : Bytes) (below : Stack) :
    opDigest OP_HASH160 (vch :: below) = .ok (littleEndian 20 (ScriptDigests.Hash160 vch).toNat :: below) := by
  rw [opDigest, Stack.need, require_of (by rw [List.length_cons]; omega)]
  rfl

theorem opEqual_same (vch : Bytes) (below : Stack) : opEqual OP_EQUAL (vch :: vch :: below) = .ok (vchTrue :: below) := by
  rw [opEqual, Stack.need, require_of (by simp only [List.length_cons]; omega)]
  simp only [Stack.stacktop_succ (show (vch :: vch :: below)[1]? = some vch from rfl),
    Stack.stacktop_succ (show (vch :: vch :: below)[0]? = some vch from rfl), ok_bind, Stack.popstack, decide_true]
  rfl

/-- The script succeeds where the redeem script on the top has the hash, and leaves what is below it. -/
theorem evalScript_scriptHash [ScriptDigests] (verifier : Verifier) (redeem : Bytes) {below : Stack}
    (room : below.length ≤ 900) :
    (evalScript verifier (redeem :: below) (setDestination (.CScriptID (ScriptDigests.Hash160 redeem)))).result =
      .ok (vchTrue :: below) := by
  let hash : Bytes := littleEndian 20 (ScriptDigests.Hash160 redeem).toNat
  let script : CScript := setDestination (.CScriptID (ScriptDigests.Hash160 redeem))
  have twenty : hash.length = 20 := littleEndian_length 20 _
  have fits : hash.length < 2 ^ 32 := by omega
  have narrow : hash.length ≤ MAX_SCRIPT_ELEMENT_SIZE := by
    rw [twenty]
    decide
  have bytes : script = [OP_HASH160] ++ (pushData hash ++ [OP_EQUAL]) := List.append_assoc _ _ _
  have length : script.length = 20 + 1 + 1 + 1 := rfl
  have small : (hash :: hash :: below).length + ([] : Stack).length ≤ 1000 := by
    simp only [List.length_cons, List.length_nil]
    omega
  have hashed : ((ScriptState.start (redeem :: below) script).step verifier).result =
      .ok ⟨pushData hash ++ [OP_EQUAL], script, [], hash :: below, [], 1⟩ := by
    have wellFormed : Token.WellFormed ⟨OP_HASH160, [], [OP_HASH160]⟩ := opcode_wellFormed (.inr (by decide))
    rw [ScriptState.step_counted wellFormed bytes rfl (by decide) (by decide) rfl (by decide : 0 < 201)]
    show (ScriptState.onStack _ (opDigest OP_HASH160)).result >>= ScriptState.limit = _
    rw [ScriptState.onStack, Logged.result_bind, Logged.result_lift, ScriptState.start, opDigest_hash160, ok_bind]
    exact ScriptState.limit_ok (by simp only [List.length_cons] at small ⊢; omega)
  have pushed : ((⟨pushData hash ++ [OP_EQUAL], script, [], hash :: below, [], 1⟩ : ScriptState).step verifier).result =
      .ok ⟨[OP_EQUAL], script, [], hash :: hash :: below, [], 1⟩ :=
    ScriptState.step_pushes (.data (pushOpcode_le hash)) (pushData_wellFormed fits) rfl narrow rfl
      (by simp only [List.length_cons] at small ⊢; omega)
  have compared : ((⟨[OP_EQUAL], script, [], hash :: hash :: below, [], 1⟩ : ScriptState).step verifier).result =
      .ok ⟨[], script, [], vchTrue :: below, [], 2⟩ := by
    have wellFormed : Token.WellFormed ⟨OP_EQUAL, [], [OP_EQUAL]⟩ := opcode_wellFormed (.inr (by decide))
    rw [ScriptState.step_counted wellFormed (List.append_nil _).symm rfl (by decide) (by decide) rfl
      (by decide : 1 < 201)]
    show (ScriptState.onStack _ (opEqual OP_EQUAL)).result >>= ScriptState.limit = _
    rw [ScriptState.onStack, Logged.result_bind, Logged.result_lift, opEqual_same, ok_bind]
    exact ScriptState.limit_ok (by simp only [List.length_cons] at small ⊢; omega)
  have whole : ((ScriptState.start (redeem :: below) script).loop verifier script.length).result =
      .ok ⟨[], script, [], vchTrue :: below, [], 2⟩ := by
    have nonempty : (ScriptState.start (redeem :: below) script).pc ≠ [] := by
      show script ≠ []
      rw [bytes]
      exact List.cons_ne_nil _ _
    have left : pushData hash ++ [OP_EQUAL] ≠ [] := List.append_ne_nil_of_right_ne_nil _ (List.cons_ne_nil _ _)
    rw [length, ScriptState.loop, if_neg nonempty, Logged.result_bind, hashed, ok_bind, ScriptState.loop, if_neg left,
      Logged.result_bind, pushed, ok_bind, ScriptState.loop, if_neg (List.cons_ne_nil _ _), Logged.result_bind, compared,
      ok_bind]
    exact ScriptState.loop_end 20 rfl
  exact evalScript_ok (by rw [length]; decide) whole rfl

/-- A script is used as it is, or by its hash; then a scriptSig ends with the script. -/
inductive Locks [ScriptDigests] (script : CScript) : CScript → Stack → Prop
  | bare : Locks script script []
  | scriptHash : Locks script (setDestination (.CScriptID (ScriptDigests.Hash160 script))) [script]

theorem multisig_not_scriptHash {script : CScript} {vSolutions : List Bytes}
    (solved : script.solver = some (.TX_MULTISIG, vSolutions)) : script.isPayToScriptHash = false := by
  have recognized := (solver_iff script _ _).mp solved
  split at recognized
  · cases recognized.1
  · rename_i other
    exact Bool.eq_false_iff.mpr other

theorem verifyScript_unlocks [ScriptDigests] {verifier : Verifier} {script scriptPubKey : CScript} {top : Stack} {m : UInt8}
    {keys sigs : List Bytes} {n : Bytes} (solved : script.solver = some (.TX_MULTISIG, [m] :: (keys ++ [n])))
    (locks : Locks script scriptPubKey top) (count : sigs.length = m.toNat) (unlocks : Unlocks verifier script sigs keys)
    (small : Small (top ++ (sigs.reverse ++ [[]]))) :
    (verifier.verifyScript (pushAll (top ++ (sigs.reverse ++ [[]]))) scriptPubKey).result = .ok () := by
  obtain ⟨operations⟩ := exists_multisigTokens solved
  have few : sigs.length ≤ 16 := by
    have enough := operations.enough
    have listed := operations.few
    omega
  have run : (evalScript verifier (sigs.reverse ++ [[]]) script).result = .ok [vchTrue] :=
    evalScript_multisig solved count unlocks (Nat.zero_le _)
  have short : (top ++ (sigs.reverse ++ [[]])).length ≤ 19 := by
    cases locks <;> simp only [List.length_append, List.length_cons, List.length_reverse, List.length_nil] <;> omega
  have pushed := evalScript_pushAll verifier small short
  cases locks with
  | bare =>
      rw [List.nil_append] at pushed ⊢
      have last : Verifier.endsTrue [vchTrue] = .ok () := rfl
      simp only [Verifier.verifyScript, Verifier.run, Logged.result_bind, Logged.result_mapEvents, Logged.result_lift, pushed,
        ok_bind, run, last, multisig_not_scriptHash solved]
      simp
  | scriptHash =>
      have room : (sigs.reverse ++ [[]]).length ≤ 900 := Nat.le_trans (Nat.le_of_lt short) (by decide)
      have hashed := evalScript_scriptHash verifier script room
      have last (below : Stack) : Verifier.endsTrue (vchTrue :: below) = .ok () := rfl
      have literal := isPushOnly_pushAll small
      rw [List.singleton_append] at pushed literal ⊢
      simp only [Verifier.verifyScript, Verifier.run, Logged.result_bind, Logged.result_mapEvents, Logged.result_lift, pushed,
        ok_bind, hashed, last]
      split_ifs
      · simp only [Verifier.verifyRedeemScript, Verifier.run, Logged.result_bind, Logged.result_mapEvents,
          Logged.result_lift, require_of literal, ok_bind, run, last]
      · rfl

end BitCrystal
