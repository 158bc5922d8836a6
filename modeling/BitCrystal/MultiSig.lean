import BitCrystal.Data.Matching
import BitCrystal.InterpreterLimits

namespace BitCrystal

open Data CScript

/-! # The matching of OP_CHECKMULTISIG -/

namespace Verifier

/-- The test that the loop makes of a signature and a key. -/
def passes (verifier : Verifier) (scriptCode : CScript) (vchSig vchPubKey : Bytes) : Bool :=
  decide (verifier.canonical vchSig vchPubKey = .ok true) && verifier.checkSig ⟨vchSig, vchPubKey, scriptCode⟩

theorem canonical_ok (verifier : Verifier) (vchSig vchPubKey : Bytes) :
    ∃ accepted, verifier.canonical vchSig vchPubKey = .ok accepted := by
  have sat : Sat _ _ fun _ => False := verifier.canonical_sat vchSig vchPubKey
  cases run : verifier.canonical vchSig vchPubKey with
  | ok accepted => exact ⟨accepted, rfl⟩
  | error failure => exact (sat.of_error run).elim

theorem check_result (verifier : Verifier) (scriptCode : CScript) (vchSig vchPubKey : Bytes) :
    (verifier.check ⟨vchSig, vchPubKey, scriptCode⟩).result = .ok (verifier.passes scriptCode vchSig vchPubKey) := by
  obtain ⟨accepted, canonical⟩ := verifier.canonical_ok vchSig vchPubKey
  unfold check passes
  rw [Logged.result_bind, Logged.result_lift, canonical]
  cases accepted with
  | true => simp [bind, Except.bind]
  | false => simp [bind, Except.bind]

end Verifier

namespace Stack

theorem stacktop_succ {stack : Stack} {k : Nat} {vch : Bytes} (found : stack[k]? = some vch) :
    stack.stacktop (k + 1) = .ok vch := by
  simp [stacktop, found, expect]

theorem popMany_eq {i : Nat} {stack : Stack} (enough : i ≤ stack.length) : popMany i stack = .ok (stack.drop i) := by
  induction i generalizing stack with
  | zero => rfl
  | succ i ih =>
      cases stack with
      | nil => simp at enough
      | cons top rest => exact ih (by simpa using enough)

end Stack

namespace ScriptState

theorem checkMultiSig_result (verifier : Verifier) {stack : Stack} (scriptCode : CScript) (room : Nat)
    {isig ikey : Nat} {sigs keys : List Bytes} (sigsAt : ∀ i vch, sigs[i]? = some vch → stack.stacktop (isig + i) = .ok vch)
    (keysAt : ∀ i vch, keys[i]? = some vch → stack.stacktop (ikey + i) = .ok vch)
    (fits : sigs.length ≤ keys.length) (enough : keys.length < room) :
    (checkMultiSig verifier stack scriptCode room sigs.length keys.length isig ikey).result =
      .ok (greedy (verifier.passes scriptCode) sigs keys) := by
  induction room generalizing sigs keys isig ikey with
  | zero => omega
  | succ room ih =>
      cases sigs with
      | nil => simp [checkMultiSig, greedy]
      | cons vchSig sigs =>
          cases keys with
          | nil => simp at fits
          | cons vchPubKey keys =>
              have positive : ¬ ((vchSig :: sigs).length : Int) ≤ 0 := by
                rw [List.length_cons]
                omega
              have sig := sigsAt 0 vchSig rfl
              have key := keysAt 0 vchPubKey rfl
              rw [Nat.add_zero] at sig key
              have laterSigs : ∀ i vch, sigs[i]? = some vch → stack.stacktop (isig + 1 + i) = .ok vch := by
                intro i vch found
                rw [Nat.add_assoc, Nat.add_comm 1]
                exact sigsAt (i + 1) vch found
              have laterKeys : ∀ i vch, keys[i]? = some vch → stack.stacktop (ikey + 1 + i) = .ok vch := by
                intro i vch found
                rw [Nat.add_assoc, Nat.add_comm 1]
                exact keysAt (i + 1) vch found
              rw [checkMultiSig, if_neg positive, greedy]
              simp only [Logged.result_bind, Logged.result_lift, sig, key, Verifier.check_result, ok_bind]
              simp only [List.length_cons, Nat.cast_succ, add_sub_cancel_right] at fits enough ⊢
              cases verifier.passes scriptCode vchSig vchPubKey with
              | true =>
                  simp only [if_true]
                  rw [if_neg (by omega)]
                  exact ih laterSigs laterKeys (by omega) (by omega)
              | false =>
                  simp only [Bool.false_eq_true, if_false]
                  by_cases tooMany : (sigs.length : Int) + 1 > keys.length
                  · -- more signatures are left than keys
                    rw [if_pos tooMany]
                    have none : greedy (verifier.passes scriptCode) (vchSig :: sigs) keys = false := by
                      rw [Bool.eq_false_iff]
                      intro found
                      have := (greedy_iff.mp found).length_le
                      rw [List.length_cons] at this
                      omega
                    rw [none]
                    rfl
                  · rw [if_neg tooMany]
                    have := ih sigsAt laterKeys (by rw [List.length_cons]; omega) (by omega)
                    rw [List.length_cons, Nat.cast_succ] at this
                    exact this

theorem dropSignatures_eq {stack : Stack} (scriptCode : CScript) {isig : Nat} {sigs : List Bytes}
    (sigsAt : ∀ i vch, sigs[i]? = some vch → stack.stacktop (isig + i) = .ok vch) :
    dropSignatures stack scriptCode sigs.length isig =
      .ok (sigs.foldl (fun scriptCode vchSig => findAndDelete scriptCode (pushData vchSig)) scriptCode) := by
  induction sigs generalizing isig scriptCode with
  | nil => rfl
  | cons vchSig sigs ih =>
      have sig := sigsAt 0 vchSig rfl
      rw [Nat.add_zero] at sig
      rw [List.length_cons, dropSignatures, sig, List.foldl_cons]
      refine ih _ fun i vch found => ?_
      rw [Nat.add_assoc, Nat.add_comm 1]
      exact sigsAt (i + 1) vch found

end ScriptState

/-- What OP_CHECKMULTISIG finds on the stack, the last key and the last signature first:
`([sig ...] num_of_signatures [pubkey ...] num_of_pubkeys)` above the rest, within the limits
of the opcode. -/
structure MultiSigArguments (state : ScriptState) where
  vchKeysCount : Bytes
  keys : List Bytes
  vchSigsCount : Bytes
  sigs : List Bytes
  rest : Stack
  stack_eq : state.stack = vchKeysCount :: keys ++ vchSigsCount :: sigs ++ rest
  keysCount : ScriptState.countAt state.stack 1 = .ok keys.length
  sigsCount : ScriptState.countAt state.stack (2 + keys.length) = .ok sigs.length
  keys_le : keys.length ≤ 20
  sigs_le : sigs.length ≤ keys.length
  nOpCount_le : state.nOpCount + keys.length ≤ 201

namespace MultiSigArguments

variable {state : ScriptState} (arguments : MultiSigArguments state)

def scriptCode : CScript :=
  arguments.sigs.foldl (fun scriptCode vchSig => findAndDelete scriptCode (pushData vchSig)) state.pbegincodehash

/-- The signatures are by keys in the same order. -/
def Matched (verifier : Verifier) : Prop :=
  Matching (verifier.passes arguments.scriptCode) arguments.sigs arguments.keys

instance decidableMatched (verifier : Verifier) : Decidable (arguments.Matched verifier) :=
  decidable_of_iff _ greedy_iff

/-- `-- bool)`: the arguments make way for the result. -/
def documented (verifier : Verifier) : Stack :=
  ofBool (arguments.Matched verifier) :: arguments.rest

theorem stack_length :
    state.stack.length = 2 + arguments.keys.length + arguments.sigs.length + arguments.rest.length := by
  rw [arguments.stack_eq]
  simp only [List.length_cons, List.length_append, List.cons_append]
  omega

theorem keysAt {i : Nat} {vch : Bytes} (found : arguments.keys[i]? = some vch) :
    state.stack.stacktop (2 + i) = .ok vch := by
  rw [Nat.add_comm 2]
  refine Stack.stacktop_succ ?_
  have inside : i < arguments.keys.length := (List.getElem?_eq_some_iff.mp found).1
  rw [arguments.stack_eq, List.append_assoc, List.cons_append, List.getElem?_cons_succ, List.getElem?_append_left inside]
  exact found

theorem sigsAt {i : Nat} {vch : Bytes} (found : arguments.sigs[i]? = some vch) :
    state.stack.stacktop (2 + arguments.keys.length + 1 + i) = .ok vch := by
  have place : 2 + arguments.keys.length + 1 + i = arguments.keys.length + (i + 1) + 1 + 1 := by omega
  rw [place]
  refine Stack.stacktop_succ ?_
  have inside : i < arguments.sigs.length := (List.getElem?_eq_some_iff.mp found).1
  rw [arguments.stack_eq, List.append_assoc, List.cons_append, List.getElem?_cons_succ,
    List.getElem?_append_right (Nat.le_add_right _ _), Nat.add_sub_cancel_left, List.cons_append,
    List.getElem?_cons_succ, List.getElem?_append_left inside]
  exact found

theorem opCheckMultiSig_result (verifier : Verifier) (opcode : UInt8) :
    (state.opCheckMultiSig verifier opcode).result =
      match arguments.rest with
      | [] => .error returnFalse
      | _ :: below => do
          let stack ← Stack.verify (ofBool (arguments.Matched verifier) :: below)
            (opcode = OP_CHECKMULTISIGVERIFY) (arguments.Matched verifier)
          return { state with stack, nOpCount := state.nOpCount + arguments.keys.length } := by
  have length := arguments.stack_length
  have keys := arguments.keys_le
  have sigs := arguments.sigs_le
  have dropped := ScriptState.dropSignatures_eq state.pbegincodehash fun i vch => arguments.sigsAt
  have matched := ScriptState.checkMultiSig_result verifier arguments.scriptCode (arguments.keys.length + 1)
    (fun i vch => arguments.sigsAt) (fun i vch => arguments.keysAt) sigs (by omega)
  have bounds : (0 : Int) ≤ arguments.keys.length ∧ (arguments.keys.length : Int) ≤ 20 := by omega
  have fewer : (0 : Int) ≤ arguments.sigs.length ∧ (arguments.sigs.length : Int) ≤ arguments.keys.length := by omega
  simp only [ScriptState.opCheckMultiSig, Logged.result_bind, Logged.result_lift, Logged.result_pure, Stack.need]
  rw [require_of (by omega), arguments.keysCount, ok_bind, ok_bind, require_of bounds, ok_bind,
    Int.toNat_natCast, require_of arguments.nOpCount_le, ok_bind, require_of (by omega), ok_bind,
    arguments.sigsCount, ok_bind, require_of fewer, ok_bind, Int.toNat_natCast]
  cases rest : arguments.rest with
  | nil =>
      rw [rest, List.length_nil] at length
      have short : ¬ 2 + arguments.keys.length + 1 + arguments.sigs.length ≤ state.stack.length := by omega
      rw [require, if_neg short]
      rfl
  | cons dummy below =>
      rw [rest, List.length_cons] at length
      have popped : state.stack.drop (2 + arguments.keys.length + 1 + arguments.sigs.length) = below := by
        have whole : state.stack =
            (arguments.vchKeysCount :: arguments.keys ++ arguments.vchSigsCount :: arguments.sigs ++ [dummy]) ++ below := by
          rw [arguments.stack_eq, rest, List.append_cons]
        rw [whole]
        refine List.drop_left' ?_
        simp only [List.length_append, List.length_cons, List.length_nil]
        omega
      rw [require_of (by omega), ok_bind, dropped, ok_bind]
      change ((ScriptState.checkMultiSig verifier state.stack arguments.scriptCode _ _ _ _ _).result >>= _) = _
      rw [matched, ok_bind, Stack.popMany_eq (by omega), ok_bind, popped]
      have decided : greedy (verifier.passes arguments.scriptCode) arguments.sigs arguments.keys =
          decide (arguments.Matched verifier) := by
        rw [Bool.eq_iff_iff, decide_eq_true_iff, greedy_iff, Matched]
      rw [decided]
      rfl

/-- OP_CHECKMULTISIG pushes whether the signatures match, but it never leaves the rest of the
stack as it was: it fails without one more element, and pops that with the documented ones. -/
theorem opCheckMultiSig_never_documented (verifier : Verifier) :
    (state.opCheckMultiSig verifier OP_CHECKMULTISIG).result.map ScriptState.stack =
        (match arguments.rest with
          | [] => .error returnFalse
          | _ :: below => .ok (ofBool (arguments.Matched verifier) :: below)) ∧
      (state.opCheckMultiSig verifier OP_CHECKMULTISIG).result.map ScriptState.stack ≠
        .ok (arguments.documented verifier) := by
  have result := arguments.opCheckMultiSig_result verifier OP_CHECKMULTISIG
  have notVerify : decide (OP_CHECKMULTISIG = OP_CHECKMULTISIGVERIFY) = false := by decide
  rw [notVerify] at result
  have outcome : (state.opCheckMultiSig verifier OP_CHECKMULTISIG).result.map ScriptState.stack =
      (match arguments.rest with
        | [] => .error returnFalse
        | _ :: below => .ok (ofBool (arguments.Matched verifier) :: below)) := by
    rw [result]
    cases arguments.rest with
    | nil => rfl
    | cons dummy below => rfl
  refine ⟨outcome, ?_⟩
  rw [outcome, documented]
  cases arguments.rest with
  | nil => simp
  | cons dummy below =>
      intro same
      have lengths := congrArg List.length (List.cons.inj (Except.ok.inj same)).2
      simp at lengths

end MultiSigArguments

namespace Sample

/-- A signature by the one key, above another element. -/
def oneOfOne : ScriptState :=
  ⟨[], [], [], [[1], [7], [1], [7], [9]], [], 1⟩

def oneOfOneArguments : MultiSigArguments oneOfOne where
  vchKeysCount := [1]
  keys := [[7]]
  vchSigsCount := [1]
  sigs := [[7]]
  rest := [[9]]
  stack_eq := rfl
  keysCount := by decide
  sigsCount := by decide
  keys_le := by decide
  sigs_le := by decide
  nOpCount_le := by decide

theorem opCheckMultiSig_pops_dummy :
    oneOfOneArguments.documented verifier = [[1], [9]] ∧
      (oneOfOne.opCheckMultiSig verifier OP_CHECKMULTISIG).result.map ScriptState.stack = .ok [[1]] := by
  constructor
  · decide
  · decide

end Sample

end BitCrystal
