import BitCrystal.Primitives

namespace BitCrystal

open Data

/-! # Parsing scripts: the parts of script.h and script.cpp that do not execute them -/

abbrev CScript := Bytes

namespace CScript

-- push value
@[match_pattern] def OP_0 : UInt8 := 0x00
@[match_pattern] def OP_PUSHDATA1 : UInt8 := 0x4c
@[match_pattern] def OP_PUSHDATA2 : UInt8 := 0x4d
@[match_pattern] def OP_PUSHDATA4 : UInt8 := 0x4e
@[match_pattern] def OP_1NEGATE : UInt8 := 0x4f
@[match_pattern] def OP_1 : UInt8 := 0x51
@[match_pattern] def OP_2 : UInt8 := 0x52
@[match_pattern] def OP_3 : UInt8 := 0x53
@[match_pattern] def OP_4 : UInt8 := 0x54
@[match_pattern] def OP_5 : UInt8 := 0x55
@[match_pattern] def OP_6 : UInt8 := 0x56
@[match_pattern] def OP_7 : UInt8 := 0x57
@[match_pattern] def OP_8 : UInt8 := 0x58
@[match_pattern] def OP_9 : UInt8 := 0x59
@[match_pattern] def OP_10 : UInt8 := 0x5a
@[match_pattern] def OP_11 : UInt8 := 0x5b
@[match_pattern] def OP_12 : UInt8 := 0x5c
@[match_pattern] def OP_13 : UInt8 := 0x5d
@[match_pattern] def OP_14 : UInt8 := 0x5e
@[match_pattern] def OP_15 : UInt8 := 0x5f
@[match_pattern] def OP_16 : UInt8 := 0x60
-- control
@[match_pattern] def OP_NOP : UInt8 := 0x61
@[match_pattern] def OP_IF : UInt8 := 0x63
@[match_pattern] def OP_NOTIF : UInt8 := 0x64
@[match_pattern] def OP_ELSE : UInt8 := 0x67
@[match_pattern] def OP_ENDIF : UInt8 := 0x68
@[match_pattern] def OP_VERIFY : UInt8 := 0x69
@[match_pattern] def OP_RETURN : UInt8 := 0x6a
-- stack ops
@[match_pattern] def OP_TOALTSTACK : UInt8 := 0x6b
@[match_pattern] def OP_FROMALTSTACK : UInt8 := 0x6c
@[match_pattern] def OP_2DROP : UInt8 := 0x6d
@[match_pattern] def OP_2DUP : UInt8 := 0x6e
@[match_pattern] def OP_3DUP : UInt8 := 0x6f
@[match_pattern] def OP_2OVER : UInt8 := 0x70
@[match_pattern] def OP_2ROT : UInt8 := 0x71
@[match_pattern] def OP_2SWAP : UInt8 := 0x72
@[match_pattern] def OP_IFDUP : UInt8 := 0x73
@[match_pattern] def OP_DEPTH : UInt8 := 0x74
@[match_pattern] def OP_DROP : UInt8 := 0x75
@[match_pattern] def OP_DUP : UInt8 := 0x76
@[match_pattern] def OP_NIP : UInt8 := 0x77
@[match_pattern] def OP_OVER : UInt8 := 0x78
@[match_pattern] def OP_PICK : UInt8 := 0x79
@[match_pattern] def OP_ROLL : UInt8 := 0x7a
@[match_pattern] def OP_ROT : UInt8 := 0x7b
@[match_pattern] def OP_SWAP : UInt8 := 0x7c
@[match_pattern] def OP_TUCK : UInt8 := 0x7d
-- splice ops
@[match_pattern] def OP_CAT : UInt8 := 0x7e
@[match_pattern] def OP_SUBSTR : UInt8 := 0x7f
@[match_pattern] def OP_LEFT : UInt8 := 0x80
@[match_pattern] def OP_RIGHT : UInt8 := 0x81
@[match_pattern] def OP_SIZE : UInt8 := 0x82
-- bit logic
@[match_pattern] def OP_INVERT : UInt8 := 0x83
@[match_pattern] def OP_AND : UInt8 := 0x84
@[match_pattern] def OP_OR : UInt8 := 0x85
@[match_pattern] def OP_XOR : UInt8 := 0x86
@[match_pattern] def OP_EQUAL : UInt8 := 0x87
@[match_pattern] def OP_EQUALVERIFY : UInt8 := 0x88
-- numeric
@[match_pattern] def OP_1ADD : UInt8 := 0x8b
@[match_pattern] def OP_1SUB : UInt8 := 0x8c
@[match_pattern] def OP_2MUL : UInt8 := 0x8d
@[match_pattern] def OP_2DIV : UInt8 := 0x8e
@[match_pattern] def OP_NEGATE : UInt8 := 0x8f
@[match_pattern] def OP_ABS : UInt8 := 0x90
@[match_pattern] def OP_NOT : UInt8 := 0x91
@[match_pattern] def OP_0NOTEQUAL : UInt8 := 0x92
@[match_pattern] def OP_ADD : UInt8 := 0x93
@[match_pattern] def OP_SUB : UInt8 := 0x94
@[match_pattern] def OP_MUL : UInt8 := 0x95
@[match_pattern] def OP_DIV : UInt8 := 0x96
@[match_pattern] def OP_MOD : UInt8 := 0x97
@[match_pattern] def OP_LSHIFT : UInt8 := 0x98
@[match_pattern] def OP_RSHIFT : UInt8 := 0x99
@[match_pattern] def OP_BOOLAND : UInt8 := 0x9a
@[match_pattern] def OP_BOOLOR : UInt8 := 0x9b
@[match_pattern] def OP_NUMEQUAL : UInt8 := 0x9c
@[match_pattern] def OP_NUMEQUALVERIFY : UInt8 := 0x9d
@[match_pattern] def OP_NUMNOTEQUAL : UInt8 := 0x9e
@[match_pattern] def OP_LESSTHAN : UInt8 := 0x9f
@[match_pattern] def OP_GREATERTHAN : UInt8 := 0xa0
@[match_pattern] def OP_LESSTHANOREQUAL : UInt8 := 0xa1
@[match_pattern] def OP_GREATERTHANOREQUAL : UInt8 := 0xa2
@[match_pattern] def OP_MIN : UInt8 := 0xa3
@[match_pattern] def OP_MAX : UInt8 := 0xa4
@[match_pattern] def OP_WITHIN : UInt8 := 0xa5
-- crypto
@[match_pattern] def OP_RIPEMD160 : UInt8 := 0xa6
@[match_pattern] def OP_SHA1 : UInt8 := 0xa7
@[match_pattern] def OP_SHA256 : UInt8 := 0xa8
@[match_pattern] def OP_HASH160 : UInt8 := 0xa9
@[match_pattern] def OP_HASH256 : UInt8 := 0xaa
@[match_pattern] def OP_CODESEPARATOR : UInt8 := 0xab
@[match_pattern] def OP_CHECKSIG : UInt8 := 0xac
@[match_pattern] def OP_CHECKSIGVERIFY : UInt8 := 0xad
@[match_pattern] def OP_CHECKMULTISIG : UInt8 := 0xae
@[match_pattern] def OP_CHECKMULTISIGVERIFY : UInt8 := 0xaf
-- expansion
@[match_pattern] def OP_NOP1 : UInt8 := 0xb0
@[match_pattern] def OP_NOP2 : UInt8 := 0xb1
@[match_pattern] def OP_NOP3 : UInt8 := 0xb2
@[match_pattern] def OP_NOP4 : UInt8 := 0xb3
@[match_pattern] def OP_NOP5 : UInt8 := 0xb4
@[match_pattern] def OP_NOP6 : UInt8 := 0xb5
@[match_pattern] def OP_NOP7 : UInt8 := 0xb6
@[match_pattern] def OP_NOP8 : UInt8 := 0xb7
@[match_pattern] def OP_NOP9 : UInt8 := 0xb8
@[match_pattern] def OP_NOP10 : UInt8 := 0xb9
@[match_pattern] def OP_INVALIDOPCODE : UInt8 := 0xff

/-- The operand of a push whose length field is `width` bytes long. -/
def pushOperand (opcode : UInt8) (width : Nat) (pc : Bytes) : Option (UInt8 × Bytes × Bytes) :=
  if pc.length < width then none
  else
    let nSize := ofLittleEndian (pc.take width)
    let operand := pc.drop width
    if operand.length < nSize then none
    else some (opcode, operand.take nSize, operand.drop nSize)

/-- GetOp2: the opcode at `pc`, its immediate operand, and the position after it. -/
def getOp : Bytes → Option (UInt8 × Bytes × Bytes)
  | [] => none
  | opcode :: pc =>
      if opcode < OP_PUSHDATA1 then
        if pc.length < opcode.toNat then none
        else some (opcode, pc.take opcode.toNat, pc.drop opcode.toNat)
      else if opcode = OP_PUSHDATA1 then pushOperand opcode 1 pc
      else if opcode = OP_PUSHDATA2 then pushOperand opcode 2 pc
      else if opcode = OP_PUSHDATA4 then pushOperand opcode 4 pc
      else some (opcode, [], pc)

def decodeOP_N (opcode : UInt8) : Nat :=
  if opcode = OP_0 then 0 else opcode.toNat - (OP_1.toNat - 1)

/-- The loop of GetSigOpCount; every turn consumes at least one of the at most
`room` bytes that are left. -/
def sigOpLoop (fAccurate : Bool) : Nat → UInt8 → Bytes → Nat
  | 0, _, _ => 0
  | room + 1, lastOpcode, pc =>
      match getOp pc with
      | none => 0
      | some (opcode, _, next) =>
          let n :=
            if opcode = OP_CHECKSIG ∨ opcode = OP_CHECKSIGVERIFY then 1
            else if opcode = OP_CHECKMULTISIG ∨ opcode = OP_CHECKMULTISIGVERIFY then
              if fAccurate ∧ OP_1 ≤ lastOpcode ∧ lastOpcode ≤ OP_16 then decodeOP_N lastOpcode
              else 20
            else 0
          n + sigOpLoop fAccurate room opcode next

def getSigOpCount (fAccurate : Bool) (script : CScript) : Nat :=
  sigOpLoop fAccurate script.length OP_INVALIDOPCODE script

def isPayToScriptHash (script : CScript) : Bool :=
  script.length = 23 && script[0]? = some OP_HASH160 &&
    script[1]? = some 0x14 && script[22]? = some OP_EQUAL

/-- The last item pushed by a script of pushes only. -/
def lastPush : Nat → Bytes → Bytes → Option Bytes
  | 0, data, _ => some data
  | room + 1, data, pc =>
      if pc = [] then some data
      else
        match getOp pc with
        | none => none
        | some (opcode, pushed, next) =>
            if OP_16 < opcode then none else lastPush room pushed next

/-- GetSigOpCount(scriptSig): the operations of the redeem script that
`scriptSig` pushes for a pay-to-script-hash output. -/
def getP2SHSigOpCount (script scriptSig : CScript) : Nat :=
  if ¬ script.isPayToScriptHash then getSigOpCount true script
  else
    match lastPush scriptSig.length [] scriptSig with
    | none => 0
    | some subscript => getSigOpCount true subscript

def isPushOnlyLoop : Nat → Bytes → Bool
  | 0, _ => true
  | room + 1, pc =>
      if pc = [] then true
      else
        match getOp pc with
        | none => false
        | some (opcode, _, next) =>
            if OP_16 < opcode then false else isPushOnlyLoop room next

def isPushOnly (script : CScript) : Bool :=
  isPushOnlyLoop script.length script

/-- `operator<<` for byte vectors. -/
def pushData (data : Bytes) : CScript :=
  if data.length < OP_PUSHDATA1.toNat then UInt8.ofNat data.length :: data
  else if data.length ≤ 0xff then OP_PUSHDATA1 :: UInt8.ofNat data.length :: data
  else if data.length ≤ 0xffff then OP_PUSHDATA2 :: (littleEndian 2 data.length ++ data)
  else OP_PUSHDATA4 :: (littleEndian 4 data.length ++ data)

end CScript

def castToBool : Bytes → Bool
  | [] => false
  | [last] => last ≠ 0 && last ≠ 0x80
  | first :: rest => first ≠ 0 || castToBool rest

inductive txnouttype where
  | TX_NONSTANDARD
  | TX_PUBKEY
  | TX_PUBKEYHASH
  | TX_SCRIPTHASH
  | TX_MULTISIG
deriving DecidableEq, Repr

def SCRIPT_VERIFY_NONE : UInt32 := 0
def SCRIPT_VERIFY_P2SH : UInt32 := 1
def SCRIPT_VERIFY_STRICTENC : UInt32 := 2
def SCRIPT_VERIFY_NOCACHE : UInt32 := 4

end BitCrystal
