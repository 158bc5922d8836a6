import BitCrystal.KeyPool

namespace BitCrystal

open Data

/-! # Which outputs are the wallet's own -/

namespace CScript

-- template matching params
@[match_pattern] def OP_SMALLINTEGER : UInt8 := 0xfa
@[match_pattern] def OP_PUBKEYS : UInt8 := 0xfb
@[match_pattern] def OP_PUBKEYHASH : UInt8 := 0xfd
@[match_pattern] def OP_PUBKEY : UInt8 := 0xfe

/-- The templates of Solver in the order of their types; each opcode is one byte without an operand. -/
def mTemplates : List (txnouttype × List UInt8) :=
  [(.TX_PUBKEY, [OP_PUBKEY, OP_CHECKSIG]),
    (.TX_PUBKEYHASH, [OP_DUP, OP_HASH160, OP_PUBKEYHASH, OP_EQUALVERIFY, OP_CHECKSIG]),
    (.TX_MULTISIG, [OP_SMALLINTEGER, OP_PUBKEYS, OP_SMALLINTEGER, OP_CHECKMULTISIG])]

/-- The pushes that OP_PUBKEYS stands for, and the operation after them. An operation that cannot be
read matches nothing. -/
def takePubKeys : Nat → UInt8 × Bytes × Bytes → List Bytes → Option ((UInt8 × Bytes × Bytes) × List Bytes)
  | 0, op, vSolutions => some (op, vSolutions)
  | room + 1, (opcode1, vch1, pc1), vSolutions =>
      if 33 ≤ vch1.length ∧ vch1.length ≤ 120 then
        match getOp pc1 with
        | none => none
        | some op => takePubKeys room op (vSolutions ++ [vch1])
      else some ((opcode1, vch1, pc1), vSolutions)

/-- The solutions after the operation `opcode1` with operand `vch1` has been held against `opcode2`. -/
def matchOp (opcode2 opcode1 : UInt8) (vch1 : Bytes) (vSolutions : List Bytes) : Option (List Bytes) :=
  if opcode2 = OP_PUBKEY then
    if vch1.length < 33 ∨ 120 < vch1.length then none else some (vSolutions ++ [vch1])
  else if opcode2 = OP_PUBKEYHASH then
    if vch1.length ≠ 20 then none else some (vSolutions ++ [vch1])
  else if opcode2 = OP_SMALLINTEGER then
    if opcode1 = OP_0 ∨ (OP_1 ≤ opcode1 ∧ opcode1 ≤ OP_16) then
      some (vSolutions ++ [[UInt8.ofNat (decodeOP_N opcode1)]])
    else none
  else if opcode1 ≠ opcode2 ∨ vch1 ≠ [] then none
  else some vSolutions

def matchTemplate : List UInt8 → Bytes → List Bytes → Option (List Bytes)
  | [], pc1, vSolutions => if pc1 = [] then some vSolutions else none
  | opcode2 :: rest, pc1, vSolutions =>
      match getOp pc1 with
      | none => none
      | some op =>
          if opcode2 = OP_PUBKEYS then
            match rest, takePubKeys pc1.length op vSolutions with
            | following :: later, some ((opcode1, vch1, next), vSolutions) =>
                match matchOp following opcode1 vch1 vSolutions with
                | none => none
                | some vSolutions => matchTemplate later next vSolutions
            | _, _ => none
          else
            match matchOp opcode2 op.1 op.2.1 vSolutions with
            | none => none
            | some vSolutions => matchTemplate rest op.2.2 vSolutions

/-- The additional checks for TX_MULTISIG. -/
def multisigCounts (vSolutions : List Bytes) : Bool :=
  let m := (vSolutions.head?.bind List.head?).getD 0
  let n := (vSolutions.getLast?.bind List.head?).getD 0
  1 ≤ m && 1 ≤ n && m ≤ n && vSolutions.length - 2 = n.toNat

def scanTemplates (script1 : CScript) : List (txnouttype × List UInt8) → Option (txnouttype × List Bytes)
  | [] => none
  | (typeRet, script2) :: rest =>
      match matchTemplate script2 script1 [] with
      | none => scanTemplates script1 rest
      | some vSolutions =>
          if typeRet = .TX_MULTISIG ∧ ¬ multisigCounts vSolutions then none else some (typeRet, vSolutions)

/-- Solver; `none` is the answer false. -/
def solver (scriptPubKey : CScript) : Option (txnouttype × List Bytes) :=
  if scriptPubKey.isPayToScriptHash then some (.TX_SCRIPTHASH, [(scriptPubKey.drop 2).take 20])
  else scanTemplates scriptPubKey mTemplates

end CScript

abbrev CScriptID := BitVec 160

/-- `uint160(vch)` -/
def uint160 (vch : Bytes) : BitVec 160 :=
  if vch.length = 20 then BitVec.ofNat 160 (ofLittleEndian vch) else 0

inductive CTxDestination where
  | CNoDestination
  | CKeyID (keyID : BitVec 160)
  | CScriptID (scriptID : BitVec 160)
deriving DecidableEq

namespace CTxDestination

/-- The type of the variant and its value. -/
def sortKey : CTxDestination → Nat × BitVec 160
  | CNoDestination => (0, 0)
  | CKeyID keyID => (1, keyID)
  | CScriptID scriptID => (2, scriptID)

theorem sortKey_injective : Function.Injective sortKey := by
  intro left right same
  cases left <;> cases right <;> simp_all [sortKey]

/-- The order of `std::map<CTxDestination, ...>`. -/
instance ord_destination : Ord CTxDestination :=
  ⟨compareLex (compareOn fun address => address.sortKey.1) (compareOn fun address => address.sortKey.2)⟩

instance transOrd_destination : Std.TransOrd CTxDestination :=
  inferInstanceAs (Std.TransCmp (compareLex (compareOn fun address : CTxDestination => address.sortKey.1)
    (compareOn fun address : CTxDestination => address.sortKey.2)))

instance lawfulEqOrd_destination : Std.LawfulEqOrd CTxDestination where
  eq_of_compare {left right} same := by
    have both : (compare left.sortKey.1 right.sortKey.1).then (compare left.sortKey.2 right.sortKey.2) = .eq :=
      same
    rw [Ordering.then_eq_eq] at both
    exact sortKey_injective (Prod.ext (Std.LawfulEqOrd.eq_of_compare both.1)
      (Std.LawfulEqOrd.eq_of_compare both.2))

end CTxDestination

structure CKeyStore where
  haveKey : CKeyID → Bool
  mapScripts : Std.ExtTreeMap CScriptID CScript

section

variable [ScriptDigests]

/-- ExtractDestination; where it returns false the address stays CNoDestination. -/
def extractDestination (scriptPubKey : CScript) : Option CTxDestination :=
  match scriptPubKey.solver with
  | some (.TX_PUBKEY, vch :: _) => some (.CKeyID (CPubKey.mk vch).getID)
  | some (.TX_PUBKEYHASH, vch :: _) => some (.CKeyID (uint160 vch))
  | some (.TX_SCRIPTHASH, vch :: _) => some (.CScriptID (uint160 vch))
  | _ => none

namespace CKeyStore

/-- IsMine of an address. -/
def isMineAddress (keystore : CKeyStore) : CTxDestination → Bool
  | .CNoDestination => false
  | .CKeyID keyID => keystore.haveKey keyID
  | .CScriptID scriptID => (keystore.mapScripts[scriptID]?).isSome

def haveKeys (pubkeys : List Bytes) (keystore : CKeyStore) : Nat :=
  pubkeys.countP fun pubkey => keystore.haveKey (CPubKey.mk pubkey).getID

/-- IsMine of a script, through at most `depth` scripts that pay to the hash of the next. -/
def isMineWithin : Nat → CKeyStore → CScript → Bool
  | 0, _, _ => false
  | depth + 1, keystore, scriptPubKey =>
      match scriptPubKey.solver with
      | none => false
      | some (.TX_NONSTANDARD, _) => false
      | some (.TX_PUBKEY, vSolutions) => keystore.haveKey (CPubKey.mk (vSolutions.head?.getD [])).getID
      | some (.TX_PUBKEYHASH, vSolutions) => keystore.haveKey (uint160 (vSolutions.head?.getD []))
      | some (.TX_SCRIPTHASH, vSolutions) =>
          match keystore.mapScripts[uint160 (vSolutions.head?.getD [])]? with
          | none => false
          | some subscript => isMineWithin depth keystore subscript
      | some (.TX_MULTISIG, vSolutions) =>
          let keys := (vSolutions.drop 1).dropLast
          haveKeys keys keystore = keys.length

/-- IsMine of a script. A chain of more scripts than there are comes back to an earlier one, and the
source does not return from it. -/
def isMine (keystore : CKeyStore) (scriptPubKey : CScript) : Bool :=
  isMineWithin (keystore.mapScripts.size + 1) keystore scriptPubKey

end CKeyStore

end

end BitCrystal
