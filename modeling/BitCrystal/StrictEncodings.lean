import BitCrystal.InterpreterLimits
import BitCrystal.MultiSig

namespace BitCrystal

open Data CScript

/-! # Verification with fewer flags

Without SCRIPT_VERIFY_STRICTENC a run of EvalScript parts from one with it only at a
signature that CheckSig accepts in an encoding that is not canonical. -/

/-- The signature and the key are encoded as STRICTENC demands. -/
def SigCall.Canonical (call : SigCall) : Prop :=
  isCanonicalSignature call.vchSig = .ok true ∧ isCanonicalPubKey call.vchPubKey = .ok true

instance SigCall.decidableCanonical (call : SigCall) : Decidable call.Canonical :=
  inferInstanceAs (Decidable (_ ∧ _))

namespace Verifier

variable {good : SigCall → Prop} {verifier strict : Verifier}

/-- The same CheckSig, and the same demands on encodings or only demands that the good calls meet. -/
structure Includes (good : SigCall → Prop) (strict verifier : Verifier) : Prop where
  checkSig : strict.checkSig = verifier.checkSig
  encodings : strict.fStrictEncodings = verifier.fStrictEncodings ∨
    verifier.fStrictEncodings = false ∧ ∀ call, good call → verifier.checkSig call = true → call.Canonical

theorem canonical_of_canonical (verifier : Verifier) {call : SigCall} (encoded : call.Canonical) :
    verifier.canonical call.vchSig call.vchPubKey = .ok true := by
  unfold canonical
  split
  · rw [encoded.1]
    exact encoded.2
  · rfl

theorem check_mirrors (includes : Includes good strict verifier) (call : SigCall) :
    Logged.Mirrors good (strict.check call) (verifier.check call) := by
  intro events
  rw [check_result, check_result]
  unfold passes
  rw [includes.checkSig]
  cases accepted : verifier.checkSig call with
  | false => rw [Bool.and_false, Bool.and_false]
  | true =>
      cases includes.encodings with
      | inl equal =>
          have same : strict.canonical = verifier.canonical := by
            funext vchSig vchPubKey
            rw [canonical, canonical, equal]
          rw [same]
      | inr lenient =>
          have plain : verifier.canonical call.vchSig call.vchPubKey = .ok true := by
            rw [canonical, if_neg (by rw [lenient.1]; decide)]
            rfl
          have emitted : call ∈ (verifier.check call).events := by
            simp [check, plain, bind]
          have encoded := lenient.2 call (events call emitted) accepted
          rw [strict.canonical_of_canonical encoded, plain]

end Verifier

namespace ScriptState

open Verifier

variable {good : SigCall → Prop} {verifier strict : Verifier}

theorem opCheckSig_mirrors (includes : Includes good strict verifier) (opcode : UInt8) (state : ScriptState) :
    Logged.Mirrors good (state.opCheckSig strict opcode)
      (state.opCheckSig verifier opcode) := by
  refine .lift_bind fun _ => .lift_bind fun vchSig => .lift_bind fun vchPubKey => ?_
  exact (check_mirrors includes _).bind fun fSuccess _ => .refl _

theorem checkMultiSig_mirrors (includes : Includes good strict verifier) (stack : Stack) (scriptCode : CScript)
    (room : Nat) (nSigsCount nKeysCount : Int) (isig ikey : Nat) :
    Logged.Mirrors good
      (checkMultiSig strict stack scriptCode room nSigsCount nKeysCount isig ikey)
      (checkMultiSig verifier stack scriptCode room nSigsCount nKeysCount isig ikey) := by
  induction room generalizing nSigsCount nKeysCount isig ikey with
  | zero => exact .refl _
  | succ room ih =>
      rw [checkMultiSig, checkMultiSig]
      refine .ite (.refl _) (.lift_bind fun vchSig => .lift_bind fun vchPubKey => ?_)
      exact (check_mirrors includes _).bind fun fOk _ => .ite (.refl _) (ih _ _ _ _)

theorem opCheckMultiSig_mirrors (includes : Includes good strict verifier) (opcode : UInt8) (state : ScriptState) :
    Logged.Mirrors good (state.opCheckMultiSig strict opcode)
      (state.opCheckMultiSig verifier opcode) := by
  refine .lift_bind fun _ => .lift_bind fun nKeysCount => .lift_bind fun _ => .lift_bind fun _ => ?_
  refine .lift_bind fun _ => .lift_bind fun nSigsCount => .lift_bind fun _ => .lift_bind fun _ => ?_
  refine .lift_bind fun scriptCode => ?_
  exact (checkMultiSig_mirrors includes _ _ _ _ _ _ _).bind fun fSuccess _ => .refl _

section

variable [ScriptDigests]

theorem switch_mirrors (includes : Includes good strict verifier) (opcode : UInt8) (state : ScriptState) :
    Logged.Mirrors good (state.switch strict opcode)
      (state.switch verifier opcode) := by
  unfold switch
  cases switchCase opcode with
  | OP_CHECKSIG => exact opCheckSig_mirrors includes opcode state
  | OP_CHECKMULTISIG => exact opCheckMultiSig_mirrors includes opcode state
  | _ => exact .refl _

theorem step_mirrors (includes : Includes good strict verifier) (state : ScriptState) :
    Logged.Mirrors good (state.step strict) (state.step verifier) := by
  refine .lift_bind fun fetched => ?_
  refine Logged.Mirrors.bind ?_ fun executed _ => .refl _
  exact .ite (.refl _) (.ite (switch_mirrors includes _ _) (.refl _))

theorem loop_mirrors (includes : Includes good strict verifier) (room : Nat) (state : ScriptState) :
    Logged.Mirrors good (state.loop strict room) (state.loop verifier room) := by
  induction room generalizing state with
  | zero => exact .refl _
  | succ room ih =>
      rw [loop, loop]
      exact .ite (.refl _) ((step_mirrors includes state).bind fun next _ => ih next)

end

end ScriptState

section

variable [ScriptDigests] {good : SigCall → Prop} {verifier strict : Verifier}

theorem evalScript_mirrors (includes : Verifier.Includes good strict verifier) (stack : Stack) (script : CScript) :
    Logged.Mirrors good (evalScript strict stack script)
      (evalScript verifier stack script) := by
  refine .lift_bind fun _ => ?_
  exact ((ScriptState.loop_mirrors includes _ _).mapError catchAll).bind fun state _ => .refl _

namespace Verifier

theorem run_mirrors (includes : Includes good strict verifier) (script : ScriptRun) (stack : Stack) (code : CScript) :
    Logged.Mirrors (fun event : ScriptRun × SigCall => good event.2)
      (strict.run script stack code) (verifier.run script stack code) :=
  (evalScript_mirrors includes stack code).mapEvents fun _ agrees => agrees

theorem verifyRedeemScript_mirrors (includes : Includes good strict verifier) (stackCopy : Stack) (scriptSig : CScript) :
    Logged.Mirrors (fun event : ScriptRun × SigCall => good event.2)
      (strict.verifyRedeemScript stackCopy scriptSig) (verifier.verifyRedeemScript stackCopy scriptSig) := by
  refine .lift_bind fun _ => ?_
  cases stackCopy with
  | nil => exact .refl _
  | cons pubKey2 stackCopy => exact (run_mirrors includes _ _ _).bind fun stack _ => .refl _

/-- The additional validation comes last, and only where a flag asks for it. -/
theorem verifyScript_of_includes {scriptSig scriptPubKey : CScript} (includes : Includes good strict verifier)
    (fewer : verifier.flags &&& SCRIPT_VERIFY_P2SH ≠ 0 → strict.flags &&& SCRIPT_VERIFY_P2SH ≠ 0)
    (events : ∀ event ∈ (verifier.verifyScript scriptSig scriptPubKey).events, good event.2)
    (accepted : (strict.verifyScript scriptSig scriptPubKey).result = .ok ()) :
    (verifier.verifyScript scriptSig scriptPubKey).result = .ok () := by
  by_cases redeem : verifier.flags &&& SCRIPT_VERIFY_P2SH ≠ 0 ∧ scriptPubKey.isPayToScriptHash = true
  · have mirrors : Logged.Mirrors (fun event : ScriptRun × SigCall => good event.2)
        (strict.verifyScript scriptSig scriptPubKey) (verifier.verifyScript scriptSig scriptPubKey) := by
      unfold verifyScript
      refine (run_mirrors includes _ _ _).bind fun stackCopy _ => (run_mirrors includes _ _ _).bind fun stack _ => ?_
      refine .lift_bind fun _ => ?_
      rw [if_pos redeem, if_pos ⟨fewer redeem.1, redeem.2⟩]
      exact verifyRedeemScript_mirrors includes stackCopy scriptSig
    rw [← mirrors events]
    exact accepted
  · have mirrors : Logged.Mirrors (fun event : ScriptRun × SigCall => good event.2)
        (do
          let stackCopy ← strict.run .scriptSig [] scriptSig
          let stack ← strict.run .scriptPubKey stackCopy scriptPubKey
          .lift (endsTrue stack))
        (verifier.verifyScript scriptSig scriptPubKey) := by
      unfold verifyScript
      refine (run_mirrors includes _ _ _).bind fun stackCopy _ => (run_mirrors includes _ _ _).bind fun stack _ => ?_
      rw [if_neg redeem]
      intro _
      rw [Logged.result_bind, Logged.result_lift]
      cases endsTrue stack with
      | ok value => rfl
      | error failure => rfl
    rw [← mirrors events]
    simp only [verifyScript, Logged.result_bind, Logged.result_lift, bind_eq_ok] at accepted ⊢
    obtain ⟨stackCopy, first, stack, second, done, ended, _⟩ := accepted
    exact ⟨stackCopy, first, stack, second, ended⟩

/-- What VerifyScript accepts it accepts with any of the flags taken away; where STRICTENC
is taken away, as long as CheckSig accepts canonical encodings only in the run without it. -/
theorem verifyScript_of_subset {checkSig : SigCall → Bool} {flags fewer : UInt32} (subset : fewer &&& flags = fewer)
    {scriptSig scriptPubKey : CScript}
    (encoded : flags &&& SCRIPT_VERIFY_STRICTENC ≠ 0 → fewer &&& SCRIPT_VERIFY_STRICTENC = 0 →
      ∀ event ∈ (verifyScript ⟨fewer, checkSig⟩ scriptSig scriptPubKey).events,
        checkSig event.2 = true → event.2.Canonical)
    (accepted : (verifyScript ⟨flags, checkSig⟩ scriptSig scriptPubKey).result = .ok ()) :
    (verifyScript ⟨fewer, checkSig⟩ scriptSig scriptPubKey).result = .ok () := by
  have kept : ∀ flag : UInt32, fewer &&& flag ≠ 0 → flags &&& flag ≠ 0 := by
    intro flag present absent
    rw [← subset, UInt32.and_assoc, absent, UInt32.and_zero] at present
    exact present rfl
  by_cases lost : flags &&& SCRIPT_VERIFY_STRICTENC ≠ 0 ∧ fewer &&& SCRIPT_VERIFY_STRICTENC = 0
  · have includes : Includes (fun call => checkSig call = true → call.Canonical) ⟨flags, checkSig⟩ ⟨fewer, checkSig⟩ := by
      refine ⟨rfl, .inr ⟨?_, fun call agrees => agrees⟩⟩
      simp [fStrictEncodings, lost.2]
    exact verifyScript_of_includes includes (kept _) (encoded lost.1 lost.2) accepted
  · have same : (⟨flags, checkSig⟩ : Verifier).fStrictEncodings = (⟨fewer, checkSig⟩ : Verifier).fStrictEncodings := by
      rw [fStrictEncodings, fStrictEncodings, decide_eq_decide]
      refine ⟨fun present absent => lost ⟨present, absent⟩, kept _⟩
    have includes : Includes (fun _ => True) ⟨flags, checkSig⟩ ⟨fewer, checkSig⟩ := ⟨rfl, .inl same⟩
    exact verifyScript_of_includes includes (kept _) (fun _ _ => trivial) accepted

end Verifier

end

namespace Sample

/-- A signature whose hash type is 0, which only STRICTENC objects to. -/
def oddHashType : Bytes := [0x30, 0x06, 0x02, 0x01, 0x01, 0x02, 0x01, 0x01, 0x00]

def hashAll : Bytes := [0x30, 0x06, 0x02, 0x01, 0x01, 0x02, 0x01, 0x01, 0x01]

def compressedKey : Bytes := 0x02 :: List.replicate 32 0x01

/-- A CheckSig for which both signatures are by the key. -/
def signedBy (call : SigCall) : Bool :=
  decide (call.vchPubKey = compressedKey ∧ (call.vchSig = oddHashType ∨ call.vchSig = hashAll))

def notSigned : CScript := pushData compressedKey ++ [OP_CHECKSIG, OP_NOT]

end Sample

open Sample in
/-- A script may ask for a signature that fails. -/
theorem Verifier.verifyScript_strict_only :
    (SCRIPT_VERIFY_P2SH &&& (SCRIPT_VERIFY_P2SH ||| SCRIPT_VERIFY_STRICTENC) = SCRIPT_VERIFY_P2SH) ∧
      (verifyScript ⟨SCRIPT_VERIFY_P2SH ||| SCRIPT_VERIFY_STRICTENC, Sample.signedBy⟩ (pushData oddHashType) notSigned).result =
        .ok () ∧
      (verifyScript ⟨SCRIPT_VERIFY_P2SH, Sample.signedBy⟩ (pushData oddHashType) notSigned).result = .error returnFalse := by
  refine ⟨by decide, by decide, by decide⟩

open Sample in
theorem Verifier.verifyScript_of_subset_signed :
    (verifyScript ⟨SCRIPT_VERIFY_P2SH, Sample.signedBy⟩ (pushData hashAll) (pushData compressedKey ++ [OP_CHECKSIG])).result =
      .ok () := by
  have accepted : (verifyScript ⟨SCRIPT_VERIFY_P2SH ||| SCRIPT_VERIFY_STRICTENC, Sample.signedBy⟩ (pushData hashAll)
      (pushData compressedKey ++ [OP_CHECKSIG])).result = .ok () := by decide
  refine verifyScript_of_subset (by decide) (fun _ _ => ?_) accepted
  decide

end BitCrystal
