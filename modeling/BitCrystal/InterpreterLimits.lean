import BitCrystal.Interpreter

namespace BitCrystal

open Data CScript

/-! # EvalScript stays within its limits

Every check on the size of the stack comes before the accesses it is for, so the
only failures are `return false` and the exception of CastToBigNum. -/

/-- How a turn of EvalScript may end early. -/
def ScriptFailure (failure : Failure) : Prop :=
  failure = returnFalse ∨ failure = bigNumError

theorem scriptFailure_returnFalse : ScriptFailure returnFalse := Or.inl rfl

def Small (stack : Stack) : Prop :=
  ∀ vch ∈ stack, vch.length ≤ MAX_SCRIPT_ELEMENT_SIZE

namespace Small

variable {stack : Stack} {vch : Bytes}

theorem nil : Small [] := by
  intro vch member
  cases member

theorem cons (bounded : vch.length ≤ MAX_SCRIPT_ELEMENT_SIZE) (small : Small stack) :
    Small (vch :: stack) := by
  intro other member
  cases List.mem_cons.mp member with
  | inl same => exact same ▸ bounded
  | inr rest => exact small other rest

theorem append {other : Stack} (small : Small stack) (also : Small other) : Small (stack ++ other) := by
  intro vch member
  cases List.mem_append.mp member with
  | inl first => exact small vch first
  | inr second => exact also vch second

theorem take (small : Small stack) (count : Nat) : Small (stack.take count) :=
  fun vch member => small vch (List.mem_of_mem_take member)

theorem drop (small : Small stack) (count : Nat) : Small (stack.drop count) :=
  fun vch member => small vch (List.mem_of_mem_drop member)

theorem set (small : Small stack) (bounded : vch.length ≤ MAX_SCRIPT_ELEMENT_SIZE) (i : Nat) :
    Small (stack.set i vch) := by
  intro other member
  cases List.mem_or_eq_of_mem_set member with
  | inl kept => exact small other kept
  | inr same => exact same ▸ bounded

end Small

/-! ## Accesses -/

namespace Stack

variable {stack : Stack} {fault : Failure → Prop}

theorem need_sat (stack : Stack) (count : Nat) :
    Sat (stack.need count) (fun _ => count ≤ stack.length) ScriptFailure :=
  Sat.require scriptFailure_returnFalse

theorem stacktop_sat {k : Nat} (small : Small stack) (positive : 0 < k) (inside : k ≤ stack.length) :
    Sat (stack.stacktop k) (fun vch => vch.length ≤ MAX_SCRIPT_ELEMENT_SIZE) fault := by
  have present : stack[k - 1]? = some stack[k - 1] := List.getElem?_eq_getElem (by omega)
  rw [stacktop, if_pos positive, present]
  exact small _ (List.getElem_mem _)

theorem popstack_sat (small : Small stack) (nonempty : 0 < stack.length) :
    Sat stack.popstack (fun rest => Small rest ∧ rest.length + 1 = stack.length) fault := by
  cases stack with
  | nil => simp at nonempty
  | cons top rest => exact ⟨small.drop 1, rfl⟩

theorem popMany_sat {i : Nat} (small : Small stack) (inside : i ≤ stack.length) :
    Sat (stack.popMany i) Small fault := by
  induction i generalizing stack with
  | zero => exact small
  | succ i ih =>
      refine (popstack_sat small (by omega)).bind fun rest popped => ?_
      exact ih popped.1 (by omega)

theorem erase_sat {first last : Nat} (small : Small stack) (ordered : last ≤ first)
    (inside : first ≤ stack.length) : Sat (stack.erase first last) Small fault := by
  rw [erase, require_of ⟨ordered, inside⟩]
  exact (small.take last).append (small.drop first)

theorem insert_sat {k : Nat} {vch : Bytes} (small : Small stack)
    (bounded : vch.length ≤ MAX_SCRIPT_ELEMENT_SIZE) (inside : k ≤ stack.length) :
    Sat (stack.insert k vch) Small fault := by
  rw [insert, require_of inside]
  exact (small.take k).append ((small.drop k).cons bounded)

theorem swap_sat {j k : Nat} (small : Small stack) (jPositive : 0 < j) (kPositive : 0 < k)
    (jInside : j ≤ stack.length) (kInside : k ≤ stack.length) :
    Sat (stack.swap j k) (fun next => Small next ∧ next.length = stack.length) fault := by
  refine (stacktop_sat small jPositive jInside).bind fun vch1 bounded1 => ?_
  refine (stacktop_sat small kPositive kInside).bind fun vch2 bounded2 => ?_
  exact ⟨(small.set bounded2 _).set bounded1 _, by simp⟩

theorem verify_sat {isVerify fSuccess : Bool} (small : Small stack) (nonempty : 0 < stack.length) :
    Sat (stack.verify isVerify fSuccess) Small ScriptFailure := by
  refine Sat.ite (fun _ => ?_) fun _ => small
  refine Sat.ite (fun _ => ?_) fun _ => scriptFailure_returnFalse
  exact (popstack_sat small nonempty).weaken fun rest popped => popped.1

end Stack

/-! ## Numbers -/

theorem castToBigNum_script (vch : Bytes) :
    Sat (castToBigNum vch) (fun n => n.natAbs < 256 ^ 5) ScriptFailure := by
  have sat := castToBigNum_sat vch
  cases run : castToBigNum vch with
  | ok n => exact sat.of_ok run
  | error failure => exact Or.inr (sat.of_error run)

theorem number_small {n : Int} (bounded : n.natAbs < 256 ^ 6) :
    (CBigNum.getvch n).length ≤ MAX_SCRIPT_ELEMENT_SIZE :=
  Nat.le_trans (CBigNum.getvch_length_le bounded) (by decide)

theorem ofBool_small (value : Bool) : (ofBool value).length ≤ MAX_SCRIPT_ELEMENT_SIZE := by
  cases value with
  | false => decide
  | true => decide

theorem bnBool_natAbs (value : Bool) : (bnBool value).natAbs < 256 ^ 6 := by
  cases value with
  | false => decide
  | true => decide

theorem unary_labels {opcode : UInt8} (selected : switchCase opcode = .OP_1ADD) :
    opcode ∈ [OP_1ADD, OP_1SUB, OP_NEGATE, OP_ABS, OP_NOT, OP_0NOTEQUAL] :=
  (switchCase_opcodes opcode).1 selected

theorem binary_labels {opcode : UInt8} (selected : switchCase opcode = .OP_ADD) :
    opcode ∈ [OP_ADD, OP_SUB, OP_BOOLAND, OP_BOOLOR, OP_NUMEQUAL, OP_NUMEQUALVERIFY, OP_NUMNOTEQUAL,
      OP_LESSTHAN, OP_GREATERTHAN, OP_LESSTHANOREQUAL, OP_GREATERTHANOREQUAL, OP_MIN, OP_MAX] :=
  (switchCase_opcodes opcode).2.1 selected

theorem unaryNumber_sat {opcode : UInt8} {bn : Int} (selected : switchCase opcode = .OP_1ADD)
    (bounded : bn.natAbs < 256 ^ 5) :
    Sat (unaryNumber opcode bn) (fun n => n.natAbs < 256 ^ 6) ScriptFailure := by
  have labels := unary_labels selected
  simp only [List.mem_cons, List.not_mem_nil, or_false] at labels
  have wide : bn.natAbs < 256 ^ 6 := Nat.lt_trans bounded (by decide)
  rcases labels with rfl | rfl | rfl | rfl | rfl | rfl
  · show (bn + 1).natAbs < 256 ^ 6
    omega
  · show (bn - 1).natAbs < 256 ^ 6
    omega
  · show (-bn).natAbs < 256 ^ 6
    omega
  · show (if bn < 0 then -bn else bn).natAbs < 256 ^ 6
    split <;> omega
  · exact bnBool_natAbs _
  · exact bnBool_natAbs _

theorem binaryNumber_sat {opcode : UInt8} {bn1 bn2 : Int} (selected : switchCase opcode = .OP_ADD)
    (bounded1 : bn1.natAbs < 256 ^ 5) (bounded2 : bn2.natAbs < 256 ^ 5) :
    Sat (binaryNumber opcode bn1 bn2) (fun n => n.natAbs < 256 ^ 6) ScriptFailure := by
  have labels := binary_labels selected
  simp only [List.mem_cons, List.not_mem_nil, or_false] at labels
  rcases labels with rfl | rfl | rfl | rfl | rfl | rfl | rfl | rfl | rfl | rfl | rfl | rfl | rfl
  · show (bn1 + bn2).natAbs < 256 ^ 6
    omega
  · show (bn1 - bn2).natAbs < 256 ^ 6
    omega
  · exact bnBool_natAbs _
  · exact bnBool_natAbs _
  · exact bnBool_natAbs _
  · exact bnBool_natAbs _
  · exact bnBool_natAbs _
  · exact bnBool_natAbs _
  · exact bnBool_natAbs _
  · exact bnBool_natAbs _
  · exact bnBool_natAbs _
  · show (if bn1 < bn2 then bn1 else bn2).natAbs < 256 ^ 6
    split <;> omega
  · show (if bn1 > bn2 then bn1 else bn2).natAbs < 256 ^ 6
    split <;> omega

theorem digest_small [ScriptDigests] (opcode : UInt8) (vch : Bytes) :
    (digest opcode vch).length ≤ MAX_SCRIPT_ELEMENT_SIZE := by
  unfold digest
  split <;> simp [MAX_SCRIPT_ELEMENT_SIZE]

/-! ## Opcodes on the main stack -/

/-- An opcode that leaves small elements on the stack and fails only as scripts may. -/
def Keeps (op : Stack → Except Failure Stack) : Prop :=
  ∀ stack, Small stack → stack.length ≤ 1000 → Sat (op stack) Small ScriptFailure

namespace Keeps

open Stack

theorem number (opcode : UInt8) : Keeps (opNumber opcode) := by
  intro stack small _
  have bounded : (opcode.toNat - (OP_1.toNat - 1 : Int)).natAbs < 256 ^ 6 := by
    have byte := opcode.toNat_lt
    simp only [OP_1, UInt8.reduceToNat]
    omega
  exact small.cons (number_small bounded)

theorem verify : Keeps opVerify := by
  intro stack small _
  refine (need_sat stack 1).bind fun _ deep => ?_
  refine (stacktop_sat small (by decide) deep).bind fun vch _ => ?_
  refine Sat.ite (fun _ => ?_) fun _ => scriptFailure_returnFalse
  exact (popstack_sat small deep).weaken fun rest popped => popped.1

theorem drop : Keeps opDrop := by
  intro stack small _
  refine (need_sat stack 1).bind fun _ deep => ?_
  exact (popstack_sat small deep).weaken fun rest popped => popped.1

theorem twoDrop : Keeps op2Drop := by
  intro stack small _
  refine (need_sat stack 2).bind fun _ deep => ?_
  refine (popstack_sat small (by omega)).bind fun rest popped => ?_
  exact (popstack_sat popped.1 (by omega)).weaken fun last popped => popped.1

theorem twoDup : Keeps op2Dup := by
  intro stack small _
  refine (need_sat stack 2).bind fun _ deep => ?_
  refine (stacktop_sat small (by decide) (by omega)).bind fun vch1 small1 => ?_
  refine (stacktop_sat small (by decide) (by omega)).bind fun vch2 small2 => ?_
  exact (small.cons small1).cons small2

theorem threeDup : Keeps op3Dup := by
  intro stack small _
  refine (need_sat stack 3).bind fun _ deep => ?_
  refine (stacktop_sat small (by decide) (by omega)).bind fun vch1 small1 => ?_
  refine (stacktop_sat small (by decide) (by omega)).bind fun vch2 small2 => ?_
  refine (stacktop_sat small (by decide) (by omega)).bind fun vch3 small3 => ?_
  exact ((small.cons small1).cons small2).cons small3

theorem twoOver : Keeps op2Over := by
  intro stack small _
  refine (need_sat stack 4).bind fun _ deep => ?_
  refine (stacktop_sat small (by decide) (by omega)).bind fun vch1 small1 => ?_
  refine (stacktop_sat small (by decide) (by omega)).bind fun vch2 small2 => ?_
  exact (small.cons small1).cons small2

theorem twoRot : Keeps op2Rot := by
  intro stack small _
  refine (need_sat stack 6).bind fun _ deep => ?_
  refine (stacktop_sat small (by decide) (by omega)).bind fun vch1 small1 => ?_
  refine (stacktop_sat small (by decide) (by omega)).bind fun vch2 small2 => ?_
  refine (erase_sat small (by decide) (by omega)).bind fun rest smallRest => ?_
  exact (smallRest.cons small1).cons small2

theorem twoSwap : Keeps op2Swap := by
  intro stack small _
  refine (need_sat stack 4).bind fun _ deep => ?_
  refine (swap_sat small (by decide) (by decide) (by omega) (by omega)).bind fun next swapped => ?_
  exact (swap_sat swapped.1 (by decide) (by decide) (by omega) (by omega)).weaken
    fun last swapped => swapped.1

theorem ifDup : Keeps opIfDup := by
  intro stack small _
  refine (need_sat stack 1).bind fun _ deep => ?_
  refine (stacktop_sat small (by decide) deep).bind fun vch bounded => ?_
  refine Sat.of_pure ?_
  split
  · exact small.cons bounded
  · exact small

theorem depth : Keeps opDepth := by
  intro stack small short
  exact small.cons (number_small (by simp; omega))

theorem dup : Keeps opDup := by
  intro stack small _
  refine (need_sat stack 1).bind fun _ deep => ?_
  refine (stacktop_sat small (by decide) deep).bind fun vch bounded => ?_
  exact small.cons bounded

theorem nip : Keeps opNip := by
  intro stack small _
  refine (need_sat stack 2).bind fun _ deep => ?_
  exact erase_sat small (by decide) deep

theorem opOver : Keeps BitCrystal.opOver := by
  intro stack small _
  refine (need_sat stack 2).bind fun _ deep => ?_
  refine (stacktop_sat small (by decide) deep).bind fun vch bounded => ?_
  exact small.cons bounded

theorem pick (opcode : UInt8) : Keeps (opPick opcode) := by
  intro stack small _
  refine (need_sat stack 2).bind fun _ deep => ?_
  refine (stacktop_sat small (by decide) (by omega)).bind fun vch _ => ?_
  refine (castToBigNum_script vch).bind fun bn _ => ?_
  refine (popstack_sat small (by omega)).bind fun rest popped => ?_
  refine (Sat.require scriptFailure_returnFalse).bind fun _ inside => ?_
  refine (stacktop_sat popped.1 (by omega) (by omega)).bind fun picked bounded => ?_
  refine Sat.ite (fun _ => ?_) fun _ => popped.1.cons bounded
  refine (erase_sat popped.1 (by omega) (by omega)).bind fun last smallLast => ?_
  exact smallLast.cons bounded

theorem rot : Keeps opRot := by
  intro stack small _
  refine (need_sat stack 3).bind fun _ deep => ?_
  refine (swap_sat small (by decide) (by decide) (by omega) (by omega)).bind fun next swapped => ?_
  exact (swap_sat swapped.1 (by decide) (by decide) (by omega) (by omega)).weaken
    fun last swapped => swapped.1

theorem swap : Keeps opSwap := by
  intro stack small _
  refine (need_sat stack 2).bind fun _ deep => ?_
  exact (swap_sat small (by decide) (by decide) (by omega) (by omega)).weaken
    fun last swapped => swapped.1

theorem tuck : Keeps opTuck := by
  intro stack small _
  refine (need_sat stack 2).bind fun _ deep => ?_
  refine (stacktop_sat small (by decide) (by omega)).bind fun vch bounded => ?_
  exact insert_sat small bounded deep

theorem size : Keeps opSize := by
  intro stack small _
  refine (need_sat stack 1).bind fun _ deep => ?_
  refine (stacktop_sat small (by decide) deep).bind fun vch bounded => ?_
  have below : vch.length ≤ 520 := bounded
  exact small.cons (number_small (by simp; omega))

theorem equal (opcode : UInt8) : Keeps (opEqual opcode) := by
  intro stack small _
  refine (need_sat stack 2).bind fun _ deep => ?_
  refine (stacktop_sat small (by decide) (by omega)).bind fun vch1 _ => ?_
  refine (stacktop_sat small (by decide) (by omega)).bind fun vch2 _ => ?_
  refine (popstack_sat small (by omega)).bind fun rest popped => ?_
  refine (popstack_sat popped.1 (by omega)).bind fun last popped => ?_
  exact verify_sat (popped.1.cons (ofBool_small _)) (by simp)

theorem unary {opcode : UInt8} (selected : switchCase opcode = .OP_1ADD) : Keeps (opUnary opcode) := by
  intro stack small _
  refine (need_sat stack 1).bind fun _ deep => ?_
  refine (stacktop_sat small (by decide) deep).bind fun vch _ => ?_
  refine (castToBigNum_script vch).bind fun bn bounded => ?_
  refine (unaryNumber_sat selected bounded).bind fun result resultBounded => ?_
  refine (popstack_sat small deep).bind fun rest popped => ?_
  exact popped.1.cons (number_small resultBounded)

theorem binary {opcode : UInt8} (selected : switchCase opcode = .OP_ADD) : Keeps (opBinary opcode) := by
  intro stack small _
  refine (need_sat stack 2).bind fun _ deep => ?_
  refine (stacktop_sat small (by decide) (by omega)).bind fun vch1 _ => ?_
  refine (castToBigNum_script vch1).bind fun bn1 bounded1 => ?_
  refine (stacktop_sat small (by decide) (by omega)).bind fun vch2 _ => ?_
  refine (castToBigNum_script vch2).bind fun bn2 bounded2 => ?_
  refine (binaryNumber_sat selected bounded1 bounded2).bind fun result resultBounded => ?_
  refine (popstack_sat small (by omega)).bind fun rest popped => ?_
  refine (popstack_sat popped.1 (by omega)).bind fun last popped => ?_
  have pushed := popped.1.cons (number_small resultBounded)
  refine Sat.ite (fun _ => ?_) fun _ => pushed
  refine (stacktop_sat pushed (by decide) (by simp)).bind fun vch _ => ?_
  refine Sat.ite (fun _ => ?_) fun _ => scriptFailure_returnFalse
  exact (popstack_sat pushed (by simp)).weaken fun rest popped => popped.1

theorem within : Keeps opWithin := by
  intro stack small _
  refine (need_sat stack 3).bind fun _ deep => ?_
  refine (stacktop_sat small (by decide) (by omega)).bind fun vch1 _ => ?_
  refine (castToBigNum_script vch1).bind fun bn1 _ => ?_
  refine (stacktop_sat small (by decide) (by omega)).bind fun vch2 _ => ?_
  refine (castToBigNum_script vch2).bind fun bn2 _ => ?_
  refine (stacktop_sat small (by decide) (by omega)).bind fun vch3 _ => ?_
  refine (castToBigNum_script vch3).bind fun bn3 _ => ?_
  refine (popstack_sat small (by omega)).bind fun first popped1 => ?_
  refine (popstack_sat popped1.1 (by omega)).bind fun second popped2 => ?_
  refine (popstack_sat popped2.1 (by omega)).bind fun third popped3 => ?_
  exact popped3.1.cons (ofBool_small _)

theorem hash [ScriptDigests] (opcode : UInt8) : Keeps (opDigest opcode) := by
  intro stack small _
  refine (need_sat stack 1).bind fun _ deep => ?_
  refine (stacktop_sat small (by decide) deep).bind fun vch _ => ?_
  refine (popstack_sat small deep).bind fun rest popped => ?_
  exact popped.1.cons (digest_small opcode vch)

end Keeps

/-! ## Signatures -/

section

variable {fault : Failure → Prop}

theorem byteAt_sat {vch : Bytes} {i : Nat} (inside : i < vch.length) :
    Sat (byteAt vch i) (fun _ => True) fault := by
  rw [byteAt, List.getElem?_eq_getElem inside]
  trivial

theorem isCanonicalPubKey_sat (vchPubKey : Bytes) :
    Sat (isCanonicalPubKey vchPubKey) (fun _ => True) fault := by
  refine Sat.ite (fun _ => trivial) fun long => ?_
  refine (byteAt_sat (by omega)).bind fun first _ => ?_
  refine Sat.ite (fun _ => trivial) fun _ => ?_
  exact Sat.ite (fun _ => trivial) fun _ => trivial

theorem isCanonicalInteger_sat {vchSig : Bytes} {start nLen : Nat}
    (inside : start + nLen < vchSig.length) :
    Sat (isCanonicalInteger vchSig start nLen) (fun _ => True) fault := by
  refine (byteAt_sat (by omega)).bind fun type _ => ?_
  refine Sat.ite (fun _ => trivial) fun _ => ?_
  refine Sat.ite (fun _ => trivial) fun nonempty => ?_
  refine (byteAt_sat (by omega)).bind fun first _ => ?_
  refine Sat.ite (fun _ => trivial) fun _ => ?_
  refine Sat.ite (fun padded => ?_) fun _ => trivial
  exact (byteAt_sat (by omega)).bind fun second _ => trivial

theorem isCanonicalSignature_sat (vchSig : Bytes) :
    Sat (isCanonicalSignature vchSig) (fun _ => True) fault := by
  refine Sat.ite (fun _ => trivial) fun long => ?_
  refine Sat.ite (fun _ => trivial) fun _ => ?_
  refine (byteAt_sat (by omega)).bind fun last _ => ?_
  refine Sat.ite (fun _ => trivial) fun _ => ?_
  refine (byteAt_sat (by omega)).bind fun first _ => ?_
  refine Sat.ite (fun _ => trivial) fun _ => ?_
  refine (byteAt_sat (by omega)).bind fun total _ => ?_
  refine Sat.ite (fun _ => trivial) fun _ => ?_
  refine (byteAt_sat (by omega)).bind fun nLenR _ => ?_
  refine Sat.ite (fun _ => trivial) fun placed => ?_
  refine (byteAt_sat (by omega)).bind fun nLenS _ => ?_
  refine Sat.ite (fun _ => trivial) fun lengths => ?_
  refine (isCanonicalInteger_sat (by omega)).bind fun canonicalR _ => ?_
  refine Sat.ite (fun _ => ?_) fun _ => trivial
  exact isCanonicalInteger_sat (by omega)

theorem Verifier.canonical_sat (verifier : Verifier) (vchSig vchPubKey : Bytes) :
    Sat (verifier.canonical vchSig vchPubKey) (fun _ => True) fault := by
  refine Sat.ite (fun _ => ?_) fun _ => trivial
  refine (isCanonicalSignature_sat vchSig).bind fun signature _ => ?_
  exact Sat.ite (fun _ => isCanonicalPubKey_sat vchPubKey) fun _ => trivial

theorem Verifier.check_sat (verifier : Verifier) (call : SigCall) :
    Sat (verifier.check call).result (fun _ => True) fault := by
  rw [check, Logged.result_bind, Logged.result_lift]
  refine (verifier.canonical_sat call.vchSig call.vchPubKey).bind fun accepted _ => ?_
  cases accepted with
  | false => trivial
  | true => trivial

end

/-! ## Turns -/

namespace ScriptState

open Stack

/-- The limits on a state between two turns. -/
structure Limits (state : ScriptState) : Prop where
  size : state.stack.length + state.altstack.length ≤ 1000
  stack : Small state.stack
  altstack : Small state.altstack
  nOpCount : state.nOpCount ≤ 201

def keysChecked (opcode : UInt8) (state : ScriptState) : Nat :=
  match switchCase opcode, countAt state.stack 1 with
  | .OP_CHECKMULTISIG, .ok nKeysCount => nKeysCount.toNat
  | _, _ => 0

/-- What the next turn adds to the operations: an opcode that is no push, and the keys it checks. -/
def cost (state : ScriptState) : Nat :=
  match state.fetch with
  | .ok (opcode, _, next) =>
      (if OP_16 < opcode then 1 else 0) + if state.fExec then keysChecked opcode next else 0
  | .error _ => 0

/-- What a body of the switch leaves, before the size limits. -/
structure After (keys : Nat) (before after : ScriptState) : Prop where
  stack : Small after.stack
  altstack : Small after.altstack
  nOpCount : after.nOpCount = before.nOpCount + keys
  bounded : after.nOpCount ≤ 201
  pc : after.pc = before.pc

theorem onStack_sat {state : ScriptState} {op : Stack → Except Failure Stack} (keeps : Keeps op)
    (limits : state.Limits) : Sat (state.onStack op).result (After 0 state) ScriptFailure := by
  rw [onStack, Logged.result_bind, Logged.result_lift]
  have short : state.stack.length ≤ 1000 := by
    have size := limits.size
    omega
  refine (keeps state.stack limits.stack short).bind fun stack small => ?_
  exact ⟨small, limits.altstack, rfl, limits.nOpCount, rfl⟩

theorem opIf_sat {state : ScriptState} (opcode : UInt8) (limits : state.Limits) :
    Sat (state.opIf opcode) (After 0 state) ScriptFailure := by
  refine Sat.ite (fun _ => ?_) fun _ => ⟨limits.stack, limits.altstack, rfl, limits.nOpCount, rfl⟩
  refine (need_sat state.stack 1).bind fun _ deep => ?_
  refine (stacktop_sat limits.stack (by decide) deep).bind fun vch _ => ?_
  refine (popstack_sat limits.stack deep).bind fun rest popped => ?_
  exact ⟨popped.1, limits.altstack, rfl, limits.nOpCount, rfl⟩

theorem opElse_sat {state : ScriptState} (limits : state.Limits) :
    Sat state.opElse (After 0 state) ScriptFailure := by
  unfold opElse
  split
  · exact scriptFailure_returnFalse
  · exact ⟨limits.stack, limits.altstack, rfl, limits.nOpCount, rfl⟩

theorem opEndIf_sat {state : ScriptState} (limits : state.Limits) :
    Sat state.opEndIf (After 0 state) ScriptFailure := by
  unfold opEndIf
  split
  · exact scriptFailure_returnFalse
  · exact ⟨limits.stack, limits.altstack, rfl, limits.nOpCount, rfl⟩

theorem opToAltStack_sat {state : ScriptState} (limits : state.Limits) :
    Sat state.opToAltStack (After 0 state) ScriptFailure := by
  refine (need_sat state.stack 1).bind fun _ deep => ?_
  refine (stacktop_sat limits.stack (by decide) deep).bind fun vch bounded => ?_
  refine (popstack_sat limits.stack deep).bind fun rest popped => ?_
  exact ⟨popped.1, limits.altstack.cons bounded, rfl, limits.nOpCount, rfl⟩

theorem opFromAltStack_sat {state : ScriptState} (limits : state.Limits) :
    Sat state.opFromAltStack (After 0 state) ScriptFailure := by
  refine (need_sat state.altstack 1).bind fun _ deep => ?_
  refine (stacktop_sat limits.altstack (by decide) deep).bind fun vch bounded => ?_
  refine (popstack_sat limits.altstack deep).bind fun rest popped => ?_
  exact ⟨limits.stack.cons bounded, popped.1, rfl, limits.nOpCount, rfl⟩

theorem opCheckSig_sat {state : ScriptState} (verifier : Verifier) (opcode : UInt8)
    (limits : state.Limits) :
    Sat (state.opCheckSig verifier opcode).result (After 0 state) ScriptFailure := by
  simp only [opCheckSig, Logged.result_bind, Logged.result_lift, Logged.result_pure]
  refine (need_sat state.stack 2).bind fun _ deep => ?_
  refine (stacktop_sat limits.stack (by decide) deep).bind fun vchSig _ => ?_
  refine (stacktop_sat limits.stack (by decide) (by omega)).bind fun vchPubKey _ => ?_
  refine (verifier.check_sat _).bind fun fSuccess _ => ?_
  refine (popstack_sat limits.stack (by omega)).bind fun rest popped => ?_
  refine (popstack_sat popped.1 (by omega)).bind fun last popped => ?_
  refine (verify_sat (popped.1.cons (ofBool_small fSuccess)) (by simp)).bind fun stack small => ?_
  exact ⟨small, limits.altstack, rfl, limits.nOpCount, rfl⟩

theorem countAt_sat {stack : Stack} {k : Nat} (small : Small stack) (positive : 0 < k)
    (inside : k ≤ stack.length) : Sat (countAt stack k) (fun _ => True) ScriptFailure := by
  refine (stacktop_sat small positive inside).bind fun vch _ => ?_
  exact (castToBigNum_script vch).bind fun bn _ => trivial

theorem dropSignatures_sat {stack : Stack} {nSigsCount isig : Nat} (small : Small stack)
    (scriptCode : CScript) (positive : 0 < isig) (inside : isig + nSigsCount ≤ stack.length + 1) :
    Sat (dropSignatures stack scriptCode nSigsCount isig) (fun _ => True) ScriptFailure := by
  induction nSigsCount generalizing isig scriptCode with
  | zero => trivial
  | succ nSigsCount ih =>
      refine (stacktop_sat small positive (by omega)).bind fun vchSig _ => ?_
      exact ih _ (by omega) (by omega)

/-- The loop never looks past the signatures and keys that the counts announce. -/
theorem checkMultiSig_sat {stack : Stack} {room : Nat} {nSigsCount nKeysCount : Int} {isig ikey : Nat}
    (verifier : Verifier) (small : Small stack) (scriptCode : CScript)
    (enough : nSigsCount ≤ nKeysCount) (fuel : nKeysCount < room) (isigPositive : 0 < isig)
    (ikeyPositive : 0 < ikey) (sigs : isig + nSigsCount ≤ stack.length + 1)
    (keys : ikey + nKeysCount ≤ stack.length + 1) (some : 0 ≤ nKeysCount) :
    Sat (checkMultiSig verifier stack scriptCode room nSigsCount nKeysCount isig ikey).result
      (fun _ => True) ScriptFailure := by
  induction room generalizing nSigsCount nKeysCount isig ikey with
  | zero => omega
  | succ room ih =>
      rw [checkMultiSig]
      by_cases done : nSigsCount ≤ 0
      · rw [if_pos done]
        trivial
      · rw [if_neg done]
        simp only [Logged.result_bind, Logged.result_lift]
        refine (stacktop_sat small isigPositive (by omega)).bind fun vchSig _ => ?_
        refine (stacktop_sat small ikeyPositive (by omega)).bind fun vchPubKey _ => ?_
        refine (verifier.check_sat _).bind fun fOk _ => ?_
        cases fOk with
        | false =>
            simp only [Bool.false_eq_true, if_false]
            split
            · trivial
            · exact ih (by omega) (by omega) (by omega) (by omega) (by omega) (by omega) (by omega)
        | true =>
            simp only [if_true]
            split
            · trivial
            · exact ih (by omega) (by omega) (by omega) (by omega) (by omega) (by omega) (by omega)

theorem opCheckMultiSig_sat {state : ScriptState} {opcode : UInt8} (verifier : Verifier)
    (limits : state.Limits) (selected : switchCase opcode = .OP_CHECKMULTISIG) :
    Sat (state.opCheckMultiSig verifier opcode).result (After (keysChecked opcode state) state)
      ScriptFailure := by
  have small := limits.stack
  simp only [opCheckMultiSig, Logged.result_bind, Logged.result_lift, Logged.result_pure]
  refine (need_sat state.stack 1).bind fun _ deep => ?_
  refine (countAt_sat small (by decide) deep).with_run.bind fun nKeysCount counted => ?_
  refine (Sat.require scriptFailure_returnFalse).bind fun _ keys => ?_
  refine (Sat.require scriptFailure_returnFalse).bind fun _ operations => ?_
  refine (need_sat state.stack _).bind fun _ deep => ?_
  refine (countAt_sat small (by omega) deep).bind fun nSigsCount _ => ?_
  refine (Sat.require scriptFailure_returnFalse).bind fun _ sigs => ?_
  refine (need_sat state.stack _).bind fun _ deep => ?_
  refine (dropSignatures_sat small _ (by omega) (by omega)).bind fun scriptCode _ => ?_
  refine (checkMultiSig_sat verifier small scriptCode sigs.2 (by omega) (by omega) (by decide)
    (by omega) (by omega) (by omega)).bind fun fSuccess _ => ?_
  refine (popMany_sat small deep).bind fun rest popped => ?_
  refine (verify_sat (popped.cons (ofBool_small fSuccess)) (by simp)).bind fun stack smallStack => ?_
  refine ⟨smallStack, limits.altstack, ?_, operations, rfl⟩
  simp [keysChecked, selected, counted.1]

theorem keysChecked_other {opcode : UInt8} {state : ScriptState} {selected : SwitchCase}
    (found : switchCase opcode = selected) (other : selected ≠ .OP_CHECKMULTISIG) :
    0 = keysChecked opcode state := by
  unfold keysChecked
  rw [found]
  split
  · contradiction
  · rfl

section

variable [ScriptDigests]

theorem switch_sat {state : ScriptState} (verifier : Verifier) (opcode : UInt8)
    (limits : state.Limits) :
    Sat (state.switch verifier opcode).result (After (keysChecked opcode state) state)
      ScriptFailure := by
  have unchanged : After 0 state state := ⟨limits.stack, limits.altstack, rfl, limits.nOpCount, rfl⟩
  have moved : After 0 state { state with pbegincodehash := state.pc } :=
    ⟨limits.stack, limits.altstack, rfl, limits.nOpCount, rfl⟩
  unfold switch
  cases selected : switchCase opcode with
  | OP_1NEGATE => exact keysChecked_other selected (by decide) ▸ onStack_sat (Keeps.number opcode) limits
  | OP_VERIFY => exact keysChecked_other selected (by decide) ▸ onStack_sat Keeps.verify limits
  | OP_2DROP => exact keysChecked_other selected (by decide) ▸ onStack_sat Keeps.twoDrop limits
  | OP_2DUP => exact keysChecked_other selected (by decide) ▸ onStack_sat Keeps.twoDup limits
  | OP_3DUP => exact keysChecked_other selected (by decide) ▸ onStack_sat Keeps.threeDup limits
  | OP_2OVER => exact keysChecked_other selected (by decide) ▸ onStack_sat Keeps.twoOver limits
  | OP_2ROT => exact keysChecked_other selected (by decide) ▸ onStack_sat Keeps.twoRot limits
  | OP_2SWAP => exact keysChecked_other selected (by decide) ▸ onStack_sat Keeps.twoSwap limits
  | OP_IFDUP => exact keysChecked_other selected (by decide) ▸ onStack_sat Keeps.ifDup limits
  | OP_DEPTH => exact keysChecked_other selected (by decide) ▸ onStack_sat Keeps.depth limits
  | OP_DROP => exact keysChecked_other selected (by decide) ▸ onStack_sat Keeps.drop limits
  | OP_DUP => exact keysChecked_other selected (by decide) ▸ onStack_sat Keeps.dup limits
  | OP_NIP => exact keysChecked_other selected (by decide) ▸ onStack_sat Keeps.nip limits
  | OP_OVER => exact keysChecked_other selected (by decide) ▸ onStack_sat Keeps.opOver limits
  | OP_PICK => exact keysChecked_other selected (by decide) ▸ onStack_sat (Keeps.pick opcode) limits
  | OP_ROT => exact keysChecked_other selected (by decide) ▸ onStack_sat Keeps.rot limits
  | OP_SWAP => exact keysChecked_other selected (by decide) ▸ onStack_sat Keeps.swap limits
  | OP_TUCK => exact keysChecked_other selected (by decide) ▸ onStack_sat Keeps.tuck limits
  | OP_SIZE => exact keysChecked_other selected (by decide) ▸ onStack_sat Keeps.size limits
  | OP_EQUAL => exact keysChecked_other selected (by decide) ▸ onStack_sat (Keeps.equal opcode) limits
  | OP_1ADD => exact keysChecked_other selected (by decide) ▸ onStack_sat (Keeps.unary selected) limits
  | OP_ADD => exact keysChecked_other selected (by decide) ▸ onStack_sat (Keeps.binary selected) limits
  | OP_WITHIN => exact keysChecked_other selected (by decide) ▸ onStack_sat Keeps.within limits
  | OP_RIPEMD160 => exact keysChecked_other selected (by decide) ▸ onStack_sat (Keeps.hash opcode) limits
  | OP_NOP => exact keysChecked_other selected (by decide) ▸ unchanged
  | OP_IF => exact keysChecked_other selected (by decide) ▸ opIf_sat opcode limits
  | OP_ELSE => exact keysChecked_other selected (by decide) ▸ opElse_sat limits
  | OP_ENDIF => exact keysChecked_other selected (by decide) ▸ opEndIf_sat limits
  | OP_TOALTSTACK => exact keysChecked_other selected (by decide) ▸ opToAltStack_sat limits
  | OP_FROMALTSTACK => exact keysChecked_other selected (by decide) ▸ opFromAltStack_sat limits
  | OP_CODESEPARATOR => exact keysChecked_other selected (by decide) ▸ moved
  | OP_CHECKSIG => exact keysChecked_other selected (by decide) ▸ opCheckSig_sat verifier opcode limits
  | OP_CHECKMULTISIG => exact opCheckMultiSig_sat verifier limits selected
  | OP_RETURN => exact scriptFailure_returnFalse
  | default => exact scriptFailure_returnFalse

end

theorem fetch_sat {state : ScriptState} (limits : state.Limits) :
    Sat state.fetch (fun read => read.2.2.Limits ∧ read.2.1.length ≤ MAX_SCRIPT_ELEMENT_SIZE ∧
      read.2.2.vfExec = state.vfExec ∧ read.2.2.pc.length < state.pc.length ∧
      read.2.2.nOpCount = state.nOpCount + if OP_16 < read.1 then 1 else 0) ScriptFailure := by
  refine (Sat.expect scriptFailure_returnFalse).bind fun read found => ?_
  obtain ⟨opcode, vchPushValue, pc⟩ := read
  have shorter := getOp_length found
  refine (Sat.require scriptFailure_returnFalse).bind fun _ short => ?_
  refine (Sat.require scriptFailure_returnFalse).bind fun _ operations => ?_
  refine (Sat.require scriptFailure_returnFalse).bind fun _ _ => ?_
  have count := limits.nOpCount
  by_cases isPush : OP_16 < opcode
  · have below := operations isPush
    refine ⟨⟨limits.size, limits.stack, limits.altstack, below⟩, short, rfl, shorter, ?_⟩
    simp [isPush]
  · refine ⟨⟨limits.size, limits.stack, limits.altstack, ?_⟩, short, rfl, shorter, ?_⟩
    · simp only [if_neg isPush]
      exact count
    · simp [isPush]

section

variable [ScriptDigests]

theorem execute_sat {state : ScriptState} {vchPushValue : Bytes} (verifier : Verifier)
    (opcode : UInt8) (limits : state.Limits)
    (bounded : vchPushValue.length ≤ MAX_SCRIPT_ELEMENT_SIZE) :
    Sat (state.execute verifier opcode vchPushValue).result
      (After (if state.fExec then keysChecked opcode state else 0) state) ScriptFailure := by
  have idle : After 0 state state := ⟨limits.stack, limits.altstack, rfl, limits.nOpCount, rfl⟩
  have silent (range : UInt8 → Prop) [DecidablePred range]
      (all : ∀ n : Fin 256, range (UInt8.ofFin n) → switchCase (UInt8.ofFin n) ≠ .OP_CHECKMULTISIG)
      (inside : range opcode) : keysChecked opcode state = 0 := by
    have differs := forall_byte (p := fun opcode => range opcode → switchCase opcode ≠ .OP_CHECKMULTISIG)
      all opcode inside
    unfold keysChecked
    split
    · contradiction
    · rfl
  unfold execute
  by_cases push : state.fExec ∧ opcode ≤ OP_PUSHDATA4
  · rw [if_pos push, if_pos push.1, silent (· ≤ OP_PUSHDATA4) (by decide +kernel) push.2]
    exact ⟨limits.stack.cons bounded, limits.altstack, rfl, limits.nOpCount, rfl⟩
  · rw [if_neg push]
    by_cases executed : state.fExec
    · rw [if_pos (Or.inl executed), if_pos executed]
      exact switch_sat verifier opcode limits
    · rw [if_neg executed]
      by_cases control : OP_IF ≤ opcode ∧ opcode ≤ OP_ENDIF
      · rw [if_pos (Or.inr control)]
        have keys := silent (fun opcode => OP_IF ≤ opcode ∧ opcode ≤ OP_ENDIF)
          (by decide +kernel) control
        exact keys ▸ switch_sat verifier opcode limits
      · rw [if_neg (by simp [executed, control])]
        exact idle

theorem step_sat {state : ScriptState} (verifier : Verifier) (limits : state.Limits) :
    Sat (state.step verifier).result
      (fun next => next.Limits ∧ next.nOpCount = state.nOpCount + state.cost ∧
        next.pc.length < state.pc.length) ScriptFailure := by
  simp only [step, Logged.result_bind, Logged.result_lift]
  refine (fetch_sat limits).with_run.bind fun read fetched => ?_
  obtain ⟨opcode, vchPushValue, next⟩ := read
  obtain ⟨run, nextLimits, bounded, vfExec, shorter, nOpCount⟩ := fetched
  refine (execute_sat verifier opcode nextLimits bounded).bind fun last after => ?_
  refine (Sat.require scriptFailure_returnFalse).bind fun _ size => ?_
  refine ⟨⟨size, after.stack, after.altstack, after.bounded⟩, ?_, after.pc ▸ shorter⟩
  have executing : next.fExec = state.fExec := by rw [fExec, vfExec, fExec]
  rw [after.nOpCount, nOpCount, executing, cost, run]
  exact Nat.add_assoc ..

/-! ## Runs -/

/-- The states before the turns that lead from one state to another. -/
inductive Turns (verifier : Verifier) : ScriptState → List ScriptState → ScriptState → Prop where
  | done (state : ScriptState) : Turns verifier state [] state
  | turn {state next last : ScriptState} {turns : List ScriptState} (left : state.pc ≠ [])
      (step : (state.step verifier).result = .ok next) (rest : Turns verifier next turns last) :
      Turns verifier state (state :: turns) last

variable {verifier : Verifier} {state last : ScriptState} {turns : List ScriptState}

theorem Turns.limits (run : Turns verifier state turns last) (limits : state.Limits) :
    last.Limits ∧ last.nOpCount = state.nOpCount + (turns.map cost).sum := by
  induction run with
  | done state => exact ⟨limits, rfl⟩
  | turn left step rest ih =>
      obtain ⟨nextLimits, count, _⟩ := (step_sat verifier limits).of_ok step
      obtain ⟨lastLimits, total⟩ := ih nextLimits
      refine ⟨lastLimits, ?_⟩
      rw [total, count, List.map_cons, List.sum_cons, Nat.add_assoc]

theorem loop_sat {room : Nat} (verifier : Verifier) (limits : state.Limits)
    (enough : state.pc.length ≤ room) :
    Sat (state.loop verifier room).result
      (fun last => last.pc = [] ∧ ∃ turns, Turns verifier state turns last) ScriptFailure := by
  induction room generalizing state with
  | zero => exact ⟨List.eq_nil_of_length_eq_zero (Nat.le_zero.mp enough), [], .done state⟩
  | succ room ih =>
      rw [loop]
      by_cases finished : state.pc = []
      · rw [if_pos finished]
        exact ⟨finished, [], .done state⟩
      · rw [if_neg finished, Logged.result_bind]
        refine (step_sat verifier limits).with_run.bind fun next after => ?_
        obtain ⟨step, nextLimits, _, shorter⟩ := after
        refine (ih nextLimits (by omega)).weaken fun last rest => ?_
        obtain ⟨ended, turns, run⟩ := rest
        exact ⟨ended, state :: turns, .turn finished step run⟩

end

end ScriptState

/-- The limits that EvalScript leaves its caller's stack in. -/
structure Stack.Within (stack : Stack) : Prop where
  size : stack.length ≤ 1000
  small : Small stack

theorem ScriptState.Limits.start {stack : Stack} (within : stack.Within) (script : CScript) :
    (ScriptState.start stack script).Limits :=
  ⟨within.size, within.small, Small.nil, Nat.zero_le _⟩

open ScriptState in
theorem evalScript_sat [ScriptDigests] (verifier : Verifier) {stack : Stack} (within : stack.Within)
    (script : CScript) :
    Sat (evalScript verifier stack script).result
      (fun result => ∃ turns last, Turns verifier (start stack script) turns last ∧
        last.pc = [] ∧ last.stack = result)
      (· = returnFalse) := by
  have required (condition : Prop) [Decidable condition] :
      Sat (require condition returnFalse) (fun _ => condition) (· = returnFalse) := Sat.require rfl
  simp only [evalScript, Logged.result_bind, Logged.result_lift, Logged.result_pure]
  refine (required _).bind fun _ _ => ?_
  have body := loop_sat verifier (Limits.start within script) (Nat.le_refl _)
  have caught : Sat (((start stack script).loop verifier script.length).mapError catchAll).result
      (fun last => last.pc = [] ∧ ∃ turns, Turns verifier (start stack script) turns last)
      (· = returnFalse) := by
    simp only [Logged.mapError]
    cases run : ((start stack script).loop verifier script.length).result with
    | ok last => exact body.of_ok run
    | error failure =>
        cases body.of_error run with
        | inl refused => rw [refused]; rfl
        | inr overflow => rw [overflow]; rfl
  refine caught.bind fun last ended => ?_
  refine (required _).bind fun _ _ => ?_
  obtain ⟨finished, turns, run⟩ := ended
  exact ⟨turns, last, run, finished, rfl⟩

open ScriptState in
/-- In every state EvalScript reaches the limits hold and the operations are counted; from
there a turn keeps the limits or fails as scripts may; EvalScript as a whole returns true,
in such a state, or false. -/
theorem evalScript_limits [ScriptDigests] {verifier : Verifier} {stack : Stack} {script : CScript}
    {turns : List ScriptState} {state : ScriptState} (within : stack.Within)
    (run : Turns verifier (start stack script) turns state) :
    state.Limits ∧ (turns.map cost).sum ≤ 201 ∧
      Sat (state.step verifier).result Limits
        (fun failure => failure = returnFalse ∨ failure = bigNumError) ∧
      Sat (evalScript verifier stack script).result
        (fun result => ∃ turns last, Turns verifier (start stack script) turns last ∧
          last.pc = [] ∧ last.stack = result)
        (· = returnFalse) := by
  obtain ⟨limits, total⟩ := run.limits (Limits.start within script)
  refine ⟨limits, ?_, ?_, evalScript_sat verifier within script⟩
  · have count := limits.nOpCount
    have zero : (start stack script).nOpCount = 0 := rfl
    omega
  · exact (step_sat verifier limits).weaken fun next after => after.1

namespace Sample

scoped instance digests : ScriptDigests where
  RIPEMD160 _ := Vector.replicate 20 0
  SHA1 _ := Vector.replicate 20 0
  SHA256 _ := Vector.replicate 32 0
  Hash160 vch := BitVec.ofNat 160 (ofLittleEndian vch)
  Hash2 vch := BitVec.ofNat 256 (ofLittleEndian vch)

def verifier : Verifier := ⟨SCRIPT_VERIFY_P2SH, fun call => call.vchSig = call.vchPubKey⟩

end Sample

open Sample ScriptState in
theorem evalScript_limits_dup :
    (⟨[], [OP_DUP], [], [[1], [1]], [], 1⟩ : ScriptState).Limits := by
  have step : ((start [[1]] [OP_DUP]).step verifier).result =
      .ok ⟨[], [OP_DUP], [], [[1], [1]], [], 1⟩ := by decide
  have within : Stack.Within [[1]] := ⟨by decide, by simp [Small, MAX_SCRIPT_ELEMENT_SIZE]⟩
  exact (evalScript_limits within (.turn (by decide) step (.done _))).1

end BitCrystal
