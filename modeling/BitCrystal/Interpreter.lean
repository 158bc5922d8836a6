import BitCrystal.BigNum
import BitCrystal.Data.Logged
import BitCrystal.SignatureHash

namespace BitCrystal

open Data

/-! # EvalScript of script.cpp -/

/-- The digests that scripts can take. -/
class ScriptDigests where
  RIPEMD160 : Bytes → Vector UInt8 20
  SHA1 : Bytes → Vector UInt8 20
  SHA256 : Bytes → Vector UInt8 32
  Hash160 : Bytes → BitVec 160
  Hash2 : Bytes → UInt256

def MAX_SCRIPT_ELEMENT_SIZE : Nat := 520

def vchFalse : Bytes := []
def vchTrue : Bytes := [1]

def ofBool (value : Bool) : Bytes :=
  if value then vchTrue else vchFalse

def returnFalse : Failure := .refused "EvalScript"

/-! ## The stack -/

/-- A stack is listed from its top: `stacktop(-k)` is at index `k - 1`. -/
abbrev Stack := List Bytes

namespace Stack

/-- `stacktop(-k)`; `vector::at` throws outside the vector. -/
def stacktop (stack : Stack) (k : Nat) : Except Failure Bytes :=
  expect (if 0 < k then stack[k - 1]? else none) (.exception "vector::_M_range_check")

def popstack (stack : Stack) : Except Failure Stack :=
  match stack with
  | [] => .error (.exception "popstack() : stack empty")
  | _ :: rest => .ok rest

/-- `while (i-- > 0) popstack(stack)`. -/
def popMany : Nat → Stack → Except Failure Stack
  | 0, stack => .ok stack
  | i + 1, stack => do
      let stack ← stack.popstack
      popMany i stack

/-- `stack.erase(stack.end() - first, stack.end() - last)`. -/
def erase (stack : Stack) (first last : Nat) : Except Failure Stack := do
  require (last ≤ first ∧ first ≤ stack.length) (.undefined "vector::erase")
  return stack.take last ++ stack.drop first

/-- `stack.insert(stack.end() - k, vch)`. -/
def insert (stack : Stack) (k : Nat) (vch : Bytes) : Except Failure Stack := do
  require (k ≤ stack.length) (.undefined "vector::insert")
  return stack.take k ++ vch :: stack.drop k

/-- `swap(stacktop(-j), stacktop(-k))`. -/
def swap (stack : Stack) (j k : Nat) : Except Failure Stack := do
  let vch1 ← stack.stacktop j
  let vch2 ← stack.stacktop k
  return (stack.set (j - 1) vch2).set (k - 1) vch1

/-- `if (stack.size() < count) return false`. -/
def need (stack : Stack) (count : Nat) : Except Failure Unit :=
  require (count ≤ stack.length) returnFalse

/-- What the VERIFY form of an opcode does with its result on the top. -/
def verify (stack : Stack) (isVerify fSuccess : Bool) : Except Failure Stack :=
  if isVerify then if fSuccess then stack.popstack else .error returnFalse
  else .ok stack

end Stack

/-! ## The opcodes that work on the main stack alone -/

section

open CScript Stack

def opNumber (opcode : UInt8) (stack : Stack) : Except Failure Stack :=
  .ok (CBigNum.getvch (opcode.toNat - (OP_1.toNat - 1 : Int)) :: stack)

def opVerify (stack : Stack) : Except Failure Stack := do
  stack.need 1
  let vch ← stack.stacktop 1
  if castToBool vch then stack.popstack else .error returnFalse

def op2Drop (stack : Stack) : Except Failure Stack := do
  stack.need 2
  let stack ← stack.popstack
  stack.popstack

def op2Dup (stack : Stack) : Except Failure Stack := do
  stack.need 2
  let vch1 ← stack.stacktop 2
  let vch2 ← stack.stacktop 1
  return vch2 :: vch1 :: stack

def op3Dup (stack : Stack) : Except Failure Stack := do
  stack.need 3
  let vch1 ← stack.stacktop 3
  let vch2 ← stack.stacktop 2
  let vch3 ← stack.stacktop 1
  return vch3 :: vch2 :: vch1 :: stack

def op2Over (stack : Stack) : Except Failure Stack := do
  stack.need 4
  let vch1 ← stack.stacktop 4
  let vch2 ← stack.stacktop 3
  return vch2 :: vch1 :: stack

def op2Rot (stack : Stack) : Except Failure Stack := do
  stack.need 6
  let vch1 ← stack.stacktop 6
  let vch2 ← stack.stacktop 5
  let stack ← stack.erase 6 4
  return vch2 :: vch1 :: stack

def op2Swap (stack : Stack) : Except Failure Stack := do
  stack.need 4
  let stack ← stack.swap 4 2
  stack.swap 3 1

def opIfDup (stack : Stack) : Except Failure Stack := do
  stack.need 1
  let vch ← stack.stacktop 1
  return if castToBool vch then vch :: stack else stack

def opDepth (stack : Stack) : Except Failure Stack :=
  .ok (CBigNum.getvch stack.length :: stack)

def opDrop (stack : Stack) : Except Failure Stack := do
  stack.need 1
  stack.popstack

def opDup (stack : Stack) : Except Failure Stack := do
  stack.need 1
  let vch ← stack.stacktop 1
  return vch :: stack

def opNip (stack : Stack) : Except Failure Stack := do
  stack.need 2
  stack.erase 2 1

def opOver (stack : Stack) : Except Failure Stack := do
  stack.need 2
  let vch ← stack.stacktop 2
  return vch :: stack

/-- OP_PICK and OP_ROLL. -/
def opPick (opcode : UInt8) (stack : Stack) : Except Failure Stack := do
  stack.need 2
  let vch ← stack.stacktop 1
  let bn ← castToBigNum vch
  let n := CBigNum.getint bn
  let stack ← stack.popstack
  require (0 ≤ n ∧ n < stack.length) returnFalse
  let vch ← stack.stacktop (n.toNat + 1)
  if opcode = OP_ROLL then do
    let stack ← stack.erase (n.toNat + 1) n.toNat
    return vch :: stack
  else return vch :: stack

def opRot (stack : Stack) : Except Failure Stack := do
  stack.need 3
  let stack ← stack.swap 3 2
  stack.swap 2 1

def opSwap (stack : Stack) : Except Failure Stack := do
  stack.need 2
  stack.swap 2 1

def opTuck (stack : Stack) : Except Failure Stack := do
  stack.need 2
  let vch ← stack.stacktop 1
  stack.insert 2 vch

def opSize (stack : Stack) : Except Failure Stack := do
  stack.need 1
  let vch ← stack.stacktop 1
  return CBigNum.getvch vch.length :: stack

/-- OP_EQUAL and OP_EQUALVERIFY. -/
def opEqual (opcode : UInt8) (stack : Stack) : Except Failure Stack := do
  stack.need 2
  let vch1 ← stack.stacktop 2
  let vch2 ← stack.stacktop 1
  let fEqual := decide (vch1 = vch2)
  let stack ← stack.popstack
  let stack ← stack.popstack
  Stack.verify (ofBool fEqual :: stack) (opcode = OP_EQUALVERIFY) fEqual

def bnBool (value : Bool) : Int := if value then 1 else 0

def unaryNumber (opcode : UInt8) (bn : Int) : Except Failure Int :=
  match opcode with
  | OP_1ADD => .ok (bn + 1)
  | OP_1SUB => .ok (bn - 1)
  | OP_NEGATE => .ok (-bn)
  | OP_ABS => .ok (if bn < 0 then -bn else bn)
  | OP_NOT => .ok (bnBool (bn = 0))
  | OP_0NOTEQUAL => .ok (bnBool (bn ≠ 0))
  | _ => .error (.undefined "invalid opcode")

def opUnary (opcode : UInt8) (stack : Stack) : Except Failure Stack := do
  stack.need 1
  let vch ← stack.stacktop 1
  let bn ← castToBigNum vch
  let bn ← unaryNumber opcode bn
  let stack ← stack.popstack
  return CBigNum.getvch bn :: stack

def binaryNumber (opcode : UInt8) (bn1 bn2 : Int) : Except Failure Int :=
  match opcode with
  | OP_ADD => .ok (bn1 + bn2)
  | OP_SUB => .ok (bn1 - bn2)
  | OP_BOOLAND => .ok (bnBool (bn1 ≠ 0 ∧ bn2 ≠ 0))
  | OP_BOOLOR => .ok (bnBool (bn1 ≠ 0 ∨ bn2 ≠ 0))
  | OP_NUMEQUAL => .ok (bnBool (bn1 = bn2))
  | OP_NUMEQUALVERIFY => .ok (bnBool (bn1 = bn2))
  | OP_NUMNOTEQUAL => .ok (bnBool (bn1 ≠ bn2))
  | OP_LESSTHAN => .ok (bnBool (bn1 < bn2))
  | OP_GREATERTHAN => .ok (bnBool (bn1 > bn2))
  | OP_LESSTHANOREQUAL => .ok (bnBool (bn1 ≤ bn2))
  | OP_GREATERTHANOREQUAL => .ok (bnBool (bn1 ≥ bn2))
  | OP_MIN => .ok (if bn1 < bn2 then bn1 else bn2)
  | OP_MAX => .ok (if bn1 > bn2 then bn1 else bn2)
  | _ => .error (.undefined "invalid opcode")

def opBinary (opcode : UInt8) (stack : Stack) : Except Failure Stack := do
  stack.need 2
  let vch1 ← stack.stacktop 2
  let bn1 ← castToBigNum vch1
  let vch2 ← stack.stacktop 1
  let bn2 ← castToBigNum vch2
  let bn ← binaryNumber opcode bn1 bn2
  let stack ← stack.popstack
  let stack ← stack.popstack
  let stack := CBigNum.getvch bn :: stack
  if opcode = OP_NUMEQUALVERIFY then do
    let vch ← Stack.stacktop stack 1
    if castToBool vch then Stack.popstack stack else .error returnFalse
  else return stack

def opWithin (stack : Stack) : Except Failure Stack := do
  stack.need 3
  let vch1 ← stack.stacktop 3
  let bn1 ← castToBigNum vch1
  let vch2 ← stack.stacktop 2
  let bn2 ← castToBigNum vch2
  let vch3 ← stack.stacktop 1
  let bn3 ← castToBigNum vch3
  let fValue := decide (bn2 ≤ bn1 ∧ bn1 < bn3)
  let stack ← stack.popstack
  let stack ← stack.popstack
  let stack ← stack.popstack
  return ofBool fValue :: stack

/-- What OP_RIPEMD160, OP_SHA1, OP_SHA256, OP_HASH160 and OP_HASH256 leave in `vchHash`. -/
def digest [ScriptDigests] (opcode : UInt8) (vch : Bytes) : Bytes :=
  match opcode with
  | OP_RIPEMD160 => (ScriptDigests.RIPEMD160 vch).toList
  | OP_SHA1 => (ScriptDigests.SHA1 vch).toList
  | OP_SHA256 => (ScriptDigests.SHA256 vch).toList
  | OP_HASH160 => littleEndian 20 (ScriptDigests.Hash160 vch).toNat
  | OP_HASH256 => littleEndian 32 (ScriptDigests.Hash2 vch).toNat
  | _ => List.replicate 32 0

def opDigest [ScriptDigests] (opcode : UInt8) (stack : Stack) : Except Failure Stack := do
  stack.need 1
  let vch ← stack.stacktop 1
  let stack ← stack.popstack
  return digest opcode vch :: stack

end

/-! ## Signatures -/

/-- `vch[i]`, which is not checked in the source. -/
def byteAt (vch : Bytes) (i : Nat) : Except Failure UInt8 :=
  expect vch[i]? (.undefined "vector::operator[]")

def isCanonicalPubKey (vchPubKey : Bytes) : Except Failure Bool :=
  if vchPubKey.length < 33 then .ok false
  else do
    let first ← byteAt vchPubKey 0
    if first = 0x04 then return vchPubKey.length = 65
    else if first = 0x02 ∨ first = 0x03 then return vchPubKey.length = 33
    else return false

/-- The checks on one of the two integers of a signature, whose bytes start at
`start` and whose type is two bytes before. -/
def isCanonicalInteger (vchSig : Bytes) (start nLen : Nat) : Except Failure Bool := do
  let type ← byteAt vchSig (start - 2)
  if type ≠ 0x02 then return false
  else if nLen = 0 then return false
  else do
    let first ← byteAt vchSig start
    if first &&& 0x80 ≠ 0 then return false
    else if nLen > 1 ∧ first = 0x00 then do
      let second ← byteAt vchSig (start + 1)
      return second &&& 0x80 ≠ 0
    else return true

def isCanonicalSignature (vchSig : Bytes) : Except Failure Bool :=
  if vchSig.length < 9 then .ok false
  else if vchSig.length > 73 then .ok false
  else do
    let last ← byteAt vchSig (vchSig.length - 1)
    let nHashType := last &&& ~~~0x80
    if nHashType < 1 ∨ nHashType > 3 then return false
    else do
      let first ← byteAt vchSig 0
      if first ≠ 0x30 then return false
      else do
        let total ← byteAt vchSig 1
        if total.toNat ≠ vchSig.length - 3 then return false
        else do
          let nLenR ← byteAt vchSig 3
          if 5 + nLenR.toNat ≥ vchSig.length then return false
          else do
            let nLenS ← byteAt vchSig (5 + nLenR.toNat)
            if nLenR.toNat + nLenS.toNat + 7 ≠ vchSig.length then return false
            else do
              let canonicalR ← isCanonicalInteger vchSig 4 nLenR.toNat
              if canonicalR then isCanonicalInteger vchSig (6 + nLenR.toNat) nLenS.toNat
              else return false

/-- The arguments of a call of CheckSig that depend on the script. -/
structure SigCall where
  vchSig : Bytes
  vchPubKey : Bytes
  scriptCode : CScript
deriving DecidableEq

/-- What EvalScript is run with besides the stack and the script; `checkSig` is
CheckSig for the transaction, the input and the hash type at hand. -/
structure Verifier where
  flags : UInt32
  checkSig : SigCall → Bool

/-- A part of EvalScript, with the calls of CheckSig it makes. -/
abbrev Evaluation := Logged Failure SigCall

namespace Verifier

def fStrictEncodings (verifier : Verifier) : Bool :=
  verifier.flags &&& SCRIPT_VERIFY_STRICTENC ≠ 0

/-- `!fStrictEncodings || (IsCanonicalSignature(vchSig) && IsCanonicalPubKey(vchPubKey))`. -/
def canonical (verifier : Verifier) (vchSig vchPubKey : Bytes) : Except Failure Bool :=
  if verifier.fStrictEncodings then do
    let signature ← isCanonicalSignature vchSig
    if signature then isCanonicalPubKey vchPubKey else return false
  else return true

def check (verifier : Verifier) (call : SigCall) : Evaluation Bool := do
  let canonical ← .lift (verifier.canonical call.vchSig call.vchPubKey)
  if canonical then do
    .emit call
    return verifier.checkSig call
  else return false

end Verifier

/-! ## The state of EvalScript -/

structure ScriptState where
  /-- What is left of the script. -/
  pc : Bytes
  pbegincodehash : Bytes
  /-- The last element first. -/
  vfExec : List Bool
  stack : Stack
  altstack : Stack
  nOpCount : Nat
deriving DecidableEq

namespace ScriptState

def start (stack : Stack) (script : CScript) : ScriptState where
  pc := script
  pbegincodehash := script
  vfExec := []
  stack := stack
  altstack := []
  nOpCount := 0

def fExec (state : ScriptState) : Bool :=
  state.vfExec.all id

/-- The effect of an opcode that works on the main stack alone. -/
def onStack (state : ScriptState) (op : Stack → Except Failure Stack) : Evaluation ScriptState := do
  let stack ← .lift (op state.stack)
  return { state with stack }

open CScript

/-- OP_IF and OP_NOTIF. -/
def opIf (opcode : UInt8) (state : ScriptState) : Except Failure ScriptState :=
  if state.fExec then do
    state.stack.need 1
    let vch ← state.stack.stacktop 1
    let fValue := if opcode = OP_NOTIF then !castToBool vch else castToBool vch
    let stack ← state.stack.popstack
    return { state with stack, vfExec := fValue :: state.vfExec }
  else return { state with vfExec := false :: state.vfExec }

def opElse (state : ScriptState) : Except Failure ScriptState :=
  match state.vfExec with
  | [] => .error returnFalse
  | back :: rest => .ok { state with vfExec := (!back) :: rest }

def opEndIf (state : ScriptState) : Except Failure ScriptState :=
  match state.vfExec with
  | [] => .error returnFalse
  | _ :: rest => .ok { state with vfExec := rest }

def opToAltStack (state : ScriptState) : Except Failure ScriptState := do
  state.stack.need 1
  let vch ← state.stack.stacktop 1
  let stack ← state.stack.popstack
  return { state with stack, altstack := vch :: state.altstack }

def opFromAltStack (state : ScriptState) : Except Failure ScriptState := do
  state.altstack.need 1
  let vch ← state.altstack.stacktop 1
  let altstack ← state.altstack.popstack
  return { state with stack := vch :: state.stack, altstack }

/-- OP_CHECKSIG and OP_CHECKSIGVERIFY. -/
def opCheckSig (verifier : Verifier) (opcode : UInt8) (state : ScriptState) :
    Evaluation ScriptState := do
  .lift (state.stack.need 2)
  let vchSig ← .lift (state.stack.stacktop 2)
  let vchPubKey ← .lift (state.stack.stacktop 1)
  let scriptCode := findAndDelete state.pbegincodehash (pushData vchSig)
  let fSuccess ← verifier.check ⟨vchSig, vchPubKey, scriptCode⟩
  let stack ← .lift state.stack.popstack
  let stack ← .lift stack.popstack
  let stack ← .lift (Stack.verify (ofBool fSuccess :: stack) (opcode = OP_CHECKSIGVERIFY) fSuccess)
  return { state with stack }

/-- `CastToBigNum(stacktop(-k)).getint()`. -/
def countAt (stack : Stack) (k : Nat) : Except Failure Int := do
  let vch ← stack.stacktop k
  let bn ← castToBigNum vch
  return CBigNum.getint bn

/-- Drop the signatures, since there's no way for a signature to sign itself. -/
def dropSignatures (stack : Stack) (scriptCode : CScript) : Nat → Nat → Except Failure CScript
  | 0, _ => .ok scriptCode
  | nSigsCount + 1, isig => do
      let vchSig ← stack.stacktop isig
      dropSignatures stack (findAndDelete scriptCode (pushData vchSig)) nSigsCount (isig + 1)

/-- The loop of OP_CHECKMULTISIG; every turn takes one of the keys. -/
def checkMultiSig (verifier : Verifier) (stack : Stack) (scriptCode : CScript) :
    Nat → Int → Int → Nat → Nat → Evaluation Bool
  | 0, _, _, _, _ => .lift (.error .endless)
  | room + 1, nSigsCount, nKeysCount, isig, ikey =>
      if nSigsCount ≤ 0 then return true
      else do
        let vchSig ← .lift (stack.stacktop isig)
        let vchPubKey ← .lift (stack.stacktop ikey)
        let fOk ← verifier.check ⟨vchSig, vchPubKey, scriptCode⟩
        let isig := if fOk then isig + 1 else isig
        let nSigsCount := if fOk then nSigsCount - 1 else nSigsCount
        let ikey := ikey + 1
        let nKeysCount := nKeysCount - 1
        if nSigsCount > nKeysCount then return false
        else checkMultiSig verifier stack scriptCode room nSigsCount nKeysCount isig ikey

/-- OP_CHECKMULTISIG and OP_CHECKMULTISIGVERIFY, where `i` counts the elements in use. -/
def opCheckMultiSig (verifier : Verifier) (opcode : UInt8) (state : ScriptState) :
    Evaluation ScriptState := do
  .lift (state.stack.need 1)
  let nKeysCount ← .lift (countAt state.stack 1)
  .lift (require (0 ≤ nKeysCount ∧ nKeysCount ≤ 20) returnFalse)
  let nOpCount := state.nOpCount + nKeysCount.toNat
  .lift (require (nOpCount ≤ 201) returnFalse)
  let ikey := 2
  let i := 2 + nKeysCount.toNat
  .lift (state.stack.need i)
  let nSigsCount ← .lift (countAt state.stack i)
  .lift (require (0 ≤ nSigsCount ∧ nSigsCount ≤ nKeysCount) returnFalse)
  let isig := i + 1
  let i := i + 1 + nSigsCount.toNat
  .lift (state.stack.need i)
  let scriptCode ← .lift (dropSignatures state.stack state.pbegincodehash nSigsCount.toNat isig)
  let fSuccess ← checkMultiSig verifier state.stack scriptCode (nKeysCount.toNat + 1) nSigsCount
    nKeysCount isig ikey
  let stack ← .lift (Stack.popMany i state.stack)
  let stack ← .lift
    (Stack.verify (ofBool fSuccess :: stack) (opcode = OP_CHECKMULTISIGVERIFY) fSuccess)
  return { state with stack, nOpCount }

end ScriptState

/-! ## The loop -/

/-- The bodies of the switch, under their first labels. -/
inductive SwitchCase where
  | OP_1NEGATE | OP_NOP | OP_IF | OP_ELSE | OP_ENDIF | OP_VERIFY | OP_RETURN
  | OP_TOALTSTACK | OP_FROMALTSTACK | OP_2DROP | OP_2DUP | OP_3DUP | OP_2OVER | OP_2ROT | OP_2SWAP
  | OP_IFDUP | OP_DEPTH | OP_DROP | OP_DUP | OP_NIP | OP_OVER | OP_PICK | OP_ROT | OP_SWAP | OP_TUCK
  | OP_SIZE | OP_EQUAL | OP_1ADD | OP_ADD | OP_WITHIN | OP_RIPEMD160 | OP_CODESEPARATOR
  | OP_CHECKSIG | OP_CHECKMULTISIG | default
deriving DecidableEq

namespace CScript

def switchCase (opcode : UInt8) : SwitchCase :=
  match opcode with
  | OP_1NEGATE | OP_1 | OP_2 | OP_3 | OP_4 | OP_5 | OP_6 | OP_7 | OP_8 | OP_9 | OP_10 | OP_11
  | OP_12 | OP_13 | OP_14 | OP_15 | OP_16 => .OP_1NEGATE
  | OP_NOP | OP_NOP1 | OP_NOP2 | OP_NOP3 | OP_NOP4 | OP_NOP5 | OP_NOP6 | OP_NOP7 | OP_NOP8
  | OP_NOP9 | OP_NOP10 => .OP_NOP
  | OP_IF | OP_NOTIF => .OP_IF
  | OP_ELSE => .OP_ELSE
  | OP_ENDIF => .OP_ENDIF
  | OP_VERIFY => .OP_VERIFY
  | OP_RETURN => .OP_RETURN
  | OP_TOALTSTACK => .OP_TOALTSTACK
  | OP_FROMALTSTACK => .OP_FROMALTSTACK
  | OP_2DROP => .OP_2DROP
  | OP_2DUP => .OP_2DUP
  | OP_3DUP => .OP_3DUP
  | OP_2OVER => .OP_2OVER
  | OP_2ROT => .OP_2ROT
  | OP_2SWAP => .OP_2SWAP
  | OP_IFDUP => .OP_IFDUP
  | OP_DEPTH => .OP_DEPTH
  | OP_DROP => .OP_DROP
  | OP_DUP => .OP_DUP
  | OP_NIP => .OP_NIP
  | OP_OVER => .OP_OVER
  | OP_PICK | OP_ROLL => .OP_PICK
  | OP_ROT => .OP_ROT
  | OP_SWAP => .OP_SWAP
  | OP_TUCK => .OP_TUCK
  | OP_SIZE => .OP_SIZE
  | OP_EQUAL | OP_EQUALVERIFY => .OP_EQUAL
  | OP_1ADD | OP_1SUB | OP_NEGATE | OP_ABS | OP_NOT | OP_0NOTEQUAL => .OP_1ADD
  | OP_ADD | OP_SUB | OP_BOOLAND | OP_BOOLOR | OP_NUMEQUAL | OP_NUMEQUALVERIFY | OP_NUMNOTEQUAL
  | OP_LESSTHAN | OP_GREATERTHAN | OP_LESSTHANOREQUAL | OP_GREATERTHANOREQUAL | OP_MIN
  | OP_MAX => .OP_ADD
  | OP_WITHIN => .OP_WITHIN
  | OP_RIPEMD160 | OP_SHA1 | OP_SHA256 | OP_HASH160 | OP_HASH256 => .OP_RIPEMD160
  | OP_CODESEPARATOR => .OP_CODESEPARATOR
  | OP_CHECKSIG | OP_CHECKSIGVERIFY => .OP_CHECKSIG
  | OP_CHECKMULTISIG | OP_CHECKMULTISIGVERIFY => .OP_CHECKMULTISIG
  | _ => .default

theorem switchCase_opcodes : ∀ opcode : UInt8,
    (switchCase opcode = .OP_1ADD → opcode ∈ [OP_1ADD, OP_1SUB, OP_NEGATE, OP_ABS, OP_NOT, OP_0NOTEQUAL]) ∧
    (switchCase opcode = .OP_ADD → opcode ∈ [OP_ADD, OP_SUB, OP_BOOLAND, OP_BOOLOR, OP_NUMEQUAL,
      OP_NUMEQUALVERIFY, OP_NUMNOTEQUAL, OP_LESSTHAN, OP_GREATERTHAN, OP_LESSTHANOREQUAL,
      OP_GREATERTHANOREQUAL, OP_MIN, OP_MAX]) ∧
    (switchCase opcode = .OP_CHECKSIG → opcode = OP_CHECKSIG ∨ opcode = OP_CHECKSIGVERIFY) ∧
    (switchCase opcode = .OP_CHECKMULTISIG → opcode = OP_CHECKMULTISIG ∨ opcode = OP_CHECKMULTISIGVERIFY) ∧
    (switchCase opcode = .OP_1NEGATE → OP_1NEGATE ≤ opcode ∧ opcode ≤ OP_16) ∧
    (¬ OP_16 < opcode → ¬ opcode ≤ OP_PUSHDATA4 →
      switchCase opcode = .OP_1NEGATE ∨ switchCase opcode = .default) :=
  forall_byte (by decide +kernel)

def isDisabled (opcode : UInt8) : Bool :=
  opcode ∈ [OP_CAT, OP_SUBSTR, OP_LEFT, OP_RIGHT, OP_INVERT, OP_AND, OP_OR, OP_XOR, OP_2MUL,
    OP_2DIV, OP_MUL, OP_DIV, OP_MOD, OP_LSHIFT, OP_RSHIFT]

end CScript

namespace ScriptState

open CScript

section

variable [ScriptDigests]

/-- The switch over the opcode that has been read. -/
def switch (verifier : Verifier) (opcode : UInt8) (state : ScriptState) : Evaluation ScriptState :=
  match switchCase opcode with
  | .OP_1NEGATE => state.onStack (opNumber opcode)
  | .OP_NOP => pure state
  | .OP_IF => .lift (state.opIf opcode)
  | .OP_ELSE => .lift state.opElse
  | .OP_ENDIF => .lift state.opEndIf
  | .OP_VERIFY => state.onStack opVerify
  | .OP_RETURN => .lift (.error returnFalse)
  | .OP_TOALTSTACK => .lift state.opToAltStack
  | .OP_FROMALTSTACK => .lift state.opFromAltStack
  | .OP_2DROP => state.onStack op2Drop
  | .OP_2DUP => state.onStack op2Dup
  | .OP_3DUP => state.onStack op3Dup
  | .OP_2OVER => state.onStack op2Over
  | .OP_2ROT => state.onStack op2Rot
  | .OP_2SWAP => state.onStack op2Swap
  | .OP_IFDUP => state.onStack opIfDup
  | .OP_DEPTH => state.onStack opDepth
  | .OP_DROP => state.onStack opDrop
  | .OP_DUP => state.onStack opDup
  | .OP_NIP => state.onStack opNip
  | .OP_OVER => state.onStack opOver
  | .OP_PICK => state.onStack (opPick opcode)
  | .OP_ROT => state.onStack opRot
  | .OP_SWAP => state.onStack opSwap
  | .OP_TUCK => state.onStack opTuck
  | .OP_SIZE => state.onStack opSize
  | .OP_EQUAL => state.onStack (opEqual opcode)
  | .OP_1ADD => state.onStack (opUnary opcode)
  | .OP_ADD => state.onStack (opBinary opcode)
  | .OP_WITHIN => state.onStack opWithin
  | .OP_RIPEMD160 => state.onStack (opDigest opcode)
  | .OP_CODESEPARATOR => pure { state with pbegincodehash := state.pc }
  | .OP_CHECKSIG => state.opCheckSig verifier opcode
  | .OP_CHECKMULTISIG => state.opCheckMultiSig verifier opcode
  | .default => .lift (.error returnFalse)

/-- Read instruction: the opcode, what it pushes and the state after it. -/
def fetch (state : ScriptState) : Except Failure (UInt8 × Bytes × ScriptState) := do
  let (opcode, vchPushValue, pc) ← expect (getOp state.pc) returnFalse
  require (vchPushValue.length ≤ MAX_SCRIPT_ELEMENT_SIZE) returnFalse
  let nOpCount := if OP_16 < opcode then state.nOpCount + 1 else state.nOpCount
  require (OP_16 < opcode → nOpCount ≤ 201) returnFalse
  require (¬ isDisabled opcode) returnFalse
  return (opcode, vchPushValue, { state with pc, nOpCount })

def execute (verifier : Verifier) (opcode : UInt8) (vchPushValue : Bytes) (state : ScriptState) :
    Evaluation ScriptState :=
  if state.fExec ∧ opcode ≤ OP_PUSHDATA4 then
    pure { state with stack := vchPushValue :: state.stack }
  else if state.fExec ∨ (OP_IF ≤ opcode ∧ opcode ≤ OP_ENDIF) then state.switch verifier opcode
  else pure state

/-- Size limits. -/
def limit (state : ScriptState) : Except Failure ScriptState := do
  require (state.stack.length + state.altstack.length ≤ 1000) returnFalse
  return state

def step (verifier : Verifier) (state : ScriptState) : Evaluation ScriptState := do
  let (opcode, vchPushValue, state) ← .lift state.fetch
  let state ← state.execute verifier opcode vchPushValue
  .lift state.limit

/-- The loop, which consumes at least one of the `room` bytes that are left in a turn. -/
def loop (verifier : Verifier) : Nat → ScriptState → Evaluation ScriptState
  | 0, state => pure state
  | room + 1, state =>
      if state.pc = [] then pure state
      else do
        let state ← state.step verifier
        loop verifier room state

end

end ScriptState

/-- `catch (...)`. -/
def catchAll (failure : Failure) : Failure :=
  match failure with
  | .exception _ => returnFalse
  | other => other

/-- EvalScript; it returns true where the result is a stack, false where it is `returnFalse`. -/
def evalScript [ScriptDigests] (verifier : Verifier) (stack : Stack) (script : CScript) :
    Evaluation Stack := do
  .lift (require (script.length ≤ 10000) returnFalse)
  let state ← ((ScriptState.start stack script).loop verifier script.length).mapError catchAll
  .lift (require (state.vfExec = []) returnFalse)
  return state.stack

/-! ## VerifyScript -/

/-- The scripts that VerifyScript runs. -/
inductive ScriptRun where
  | scriptSig
  | scriptPubKey
  | redeemScript
deriving DecidableEq

namespace Verifier

section

variable [ScriptDigests]

/-- EvalScript, with its calls of CheckSig marked by the script they come from. -/
def run (verifier : Verifier) (script : ScriptRun) (stack : Stack) (code : CScript) :
    Logged Failure (ScriptRun × SigCall) Stack :=
  (evalScript verifier stack code).mapEvents (script, ·)

def endsTrue (stack : Stack) : Except Failure Unit :=
  match stack with
  | [] => .error returnFalse
  | top :: _ => require (castToBool top) returnFalse

/-- Additional validation for spend-to-script-hash transactions. -/
def verifyRedeemScript (verifier : Verifier) (stackCopy : Stack) (scriptSig : CScript) :
    Logged Failure (ScriptRun × SigCall) Unit := do
  .lift (require scriptSig.isPushOnly returnFalse)
  match stackCopy with
  | [] => .lift (.error (.undefined "!stackCopy.empty()"))
  | pubKey2 :: stackCopy => do
      let stack ← verifier.run .redeemScript stackCopy pubKey2
      .lift (endsTrue stack)

/-- VerifyScript; it returns true where it succeeds and false where it fails with `returnFalse`. -/
def verifyScript (verifier : Verifier) (scriptSig scriptPubKey : CScript) :
    Logged Failure (ScriptRun × SigCall) Unit := do
  let stackCopy ← verifier.run .scriptSig [] scriptSig
  let stack ← verifier.run .scriptPubKey stackCopy scriptPubKey
  .lift (endsTrue stack)
  if verifier.flags &&& SCRIPT_VERIFY_P2SH ≠ 0 ∧ scriptPubKey.isPayToScriptHash then
    verifier.verifyRedeemScript stackCopy scriptSig
  else pure ()

end

end Verifier

end BitCrystal
