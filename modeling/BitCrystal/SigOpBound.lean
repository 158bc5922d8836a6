import BitCrystal.Interpreter

namespace BitCrystal

open Data CScript

/-! # The static count of signature operations bounds the checks

EvalScript goes through a script once, like GetSigOpCount, and the number that an
OP_n announces to the static count is on the top of the stack when the next opcode
takes its number of keys from there. -/

/-- What GetSigOpCount adds for an opcode. -/
def sigOps (lastOpcode opcode : UInt8) : Nat :=
  if opcode = OP_CHECKSIG ∨ opcode = OP_CHECKSIGVERIFY then 1
  else if opcode = OP_CHECKMULTISIG ∨ opcode = OP_CHECKMULTISIGVERIFY then
    if OP_1 ≤ lastOpcode ∧ lastOpcode ≤ OP_16 then decodeOP_N lastOpcode else 20
  else 0

theorem sigOpLoop_succ {room : Nat} {lastOpcode opcode : UInt8} {pc data next : Bytes}
    (found : getOp pc = some (opcode, data, next)) :
    sigOpLoop true (room + 1) lastOpcode pc = sigOps lastOpcode opcode + sigOpLoop true room opcode next := by
  simp [sigOpLoop, found, sigOps]

theorem switchCase_checkSig {opcode : UInt8} (selected : switchCase opcode = .OP_CHECKSIG) :
    opcode = OP_CHECKSIG ∨ opcode = OP_CHECKSIGVERIFY :=
  (switchCase_opcodes opcode).2.2.1 selected

theorem switchCase_checkMultiSig {opcode : UInt8} (selected : switchCase opcode = .OP_CHECKMULTISIG) :
    opcode = OP_CHECKMULTISIG ∨ opcode = OP_CHECKMULTISIGVERIFY :=
  (switchCase_opcodes opcode).2.2.2.1 selected

theorem switchCase_number {opcode : UInt8} (low : OP_1 ≤ opcode) (high : opcode ≤ OP_16) :
    switchCase opcode = .OP_1NEGATE ∧ ¬ opcode ≤ OP_PUSHDATA4 ∧
      ScriptState.countAt [CBigNum.getvch (opcode.toNat - (OP_1.toNat - 1 : Int))] 1 =
        .ok (decodeOP_N opcode) :=
  forall_byte (p := fun opcode => OP_1 ≤ opcode ∧ opcode ≤ OP_16 → switchCase opcode = .OP_1NEGATE ∧
    ¬ opcode ≤ OP_PUSHDATA4 ∧
    ScriptState.countAt [CBigNum.getvch (opcode.toNat - (OP_1.toNat - 1 : Int))] 1 =
      .ok (decodeOP_N opcode)) (by decide +kernel) opcode ⟨low, high⟩

/-! ## Calls of the opcodes -/

theorem Verifier.check_events_le (verifier : Verifier) (call : SigCall) :
    (verifier.check call).events.length ≤ 1 := by
  refine Logged.events_lift_bind_le fun canonical _ => ?_
  cases canonical with
  | false => simp
  | true => exact Logged.events_bind_le (m := 1) (n := 0) (by simp) (by simp)

namespace ScriptState

variable {state : ScriptState} {opcode : UInt8}

theorem onStack_events_le (state : ScriptState) (op : Stack → Except Failure Stack) (n : Nat) :
    (state.onStack op).events.length ≤ n :=
  Logged.events_lift_bind_le fun _ _ => Nat.zero_le n

theorem opCheckSig_events_le (state : ScriptState) (verifier : Verifier) (opcode : UInt8) :
    (state.opCheckSig verifier opcode).events.length ≤ 1 := by
  refine Logged.events_lift_bind_le fun _ _ => ?_
  refine Logged.events_lift_bind_le fun vchSig _ => ?_
  refine Logged.events_lift_bind_le fun vchPubKey _ => ?_
  refine Logged.events_bind_le (m := 1) (n := 0) (verifier.check_events_le _) fun fSuccess _ => ?_
  refine Logged.events_lift_bind_le fun _ _ => ?_
  refine Logged.events_lift_bind_le fun _ _ => ?_
  exact Logged.events_lift_bind_le fun _ _ => Nat.le_refl 0

theorem checkMultiSig_events_le {stack : Stack} {scriptCode : CScript} {room : Nat}
    {nSigsCount nKeysCount : Int} {isig ikey : Nat} (verifier : Verifier)
    (enough : nSigsCount ≤ nKeysCount) :
    (checkMultiSig verifier stack scriptCode room nSigsCount nKeysCount isig ikey).events.length ≤
      nKeysCount.toNat := by
  induction room generalizing nSigsCount nKeysCount isig ikey with
  | zero => simp [checkMultiSig]
  | succ room ih =>
      rw [checkMultiSig]
      by_cases done : nSigsCount ≤ 0
      · simp [done]
      · rw [if_neg done]
        have keys : nKeysCount.toNat = 1 + (nKeysCount - 1).toNat := by omega
        rw [keys]
        refine Logged.events_lift_bind_le fun vchSig _ => ?_
        refine Logged.events_lift_bind_le fun vchPubKey _ => ?_
        refine Logged.events_bind_le (verifier.check_events_le _) fun fOk _ => ?_
        cases fOk with
        | false =>
            simp only [Bool.false_eq_true, if_false]
            split
            · simp
            · exact ih (by omega)
        | true =>
            simp only [if_true]
            split
            · simp
            · exact ih (by omega)

theorem opCheckMultiSig_events_le {keys : Nat} (verifier : Verifier) (opcode : UInt8)
    (announced : ∀ nKeysCount, countAt state.stack 1 = .ok nKeysCount → nKeysCount.toNat ≤ 20 →
      nKeysCount.toNat ≤ keys) :
    (state.opCheckMultiSig verifier opcode).events.length ≤ keys := by
  refine Logged.events_lift_bind_le fun _ _ => ?_
  refine Logged.events_lift_bind_le fun nKeysCount counted => ?_
  refine Logged.events_lift_bind_le fun _ range => ?_
  rw [require_eq_ok] at range
  refine Logged.events_lift_bind_le fun _ _ => ?_
  refine Logged.events_lift_bind_le fun _ _ => ?_
  refine Logged.events_lift_bind_le fun nSigsCount _ => ?_
  refine Logged.events_lift_bind_le fun _ sigs => ?_
  rw [require_eq_ok] at sigs
  refine Logged.events_lift_bind_le fun _ _ => ?_
  refine Logged.events_lift_bind_le fun scriptCode _ => ?_
  refine Logged.events_bind_le (m := keys) (n := 0) ?_ fun fSuccess _ => ?_
  · exact Nat.le_trans (checkMultiSig_events_le verifier sigs.2)
      (announced nKeysCount counted (by omega))
  · refine Logged.events_lift_bind_le fun _ _ => ?_
    exact Logged.events_lift_bind_le fun _ _ => Nat.le_refl 0

/-! ## Turns -/

section

variable [ScriptDigests]

theorem switch_events_le {lastOpcode : UInt8} (verifier : Verifier)
    (announced : OP_1 ≤ lastOpcode → lastOpcode ≤ OP_16 →
      switchCase opcode = .OP_CHECKMULTISIG → countAt state.stack 1 = .ok (decodeOP_N lastOpcode)) :
    (state.switch verifier opcode).events.length ≤ sigOps lastOpcode opcode := by
  unfold switch
  cases selected : switchCase opcode with
  | OP_CHECKSIG =>
      rw [sigOps, if_pos (switchCase_checkSig selected)]
      exact opCheckSig_events_le state verifier opcode
  | OP_CHECKMULTISIG =>
      have label := switchCase_checkMultiSig selected
      have other : ¬ (opcode = OP_CHECKSIG ∨ opcode = OP_CHECKSIGVERIFY) := by
        cases label with
        | inl plain => rw [plain]; decide
        | inr verify => rw [verify]; decide
      rw [sigOps, if_neg other, if_pos label]
      refine opCheckMultiSig_events_le verifier opcode fun nKeysCount counted few => ?_
      split
      · rename_i range
        rw [announced range.1 range.2 selected, Except.ok.injEq] at counted
        rw [← counted]
        exact Nat.le_refl _
      · exact few
  | OP_NOP => exact Nat.zero_le _
  | OP_IF => exact Nat.zero_le _
  | OP_ELSE => exact Nat.zero_le _
  | OP_ENDIF => exact Nat.zero_le _
  | OP_RETURN => exact Nat.zero_le _
  | OP_TOALTSTACK => exact Nat.zero_le _
  | OP_FROMALTSTACK => exact Nat.zero_le _
  | OP_CODESEPARATOR => exact Nat.zero_le _
  | default => exact Nat.zero_le _
  | _ => exact onStack_events_le state _ _

theorem execute_events_le {lastOpcode : UInt8} {vchPushValue : Bytes} (verifier : Verifier)
    (announced : OP_1 ≤ lastOpcode → lastOpcode ≤ OP_16 → state.fExec = true →
      countAt state.stack 1 = .ok (decodeOP_N lastOpcode)) :
    (state.execute verifier opcode vchPushValue).events.length ≤ sigOps lastOpcode opcode := by
  unfold execute
  split
  · exact Nat.zero_le _
  · split
    · rename_i executed
      refine switch_events_le verifier fun low high selected => announced low high ?_
      cases executed with
      | inl executing => exact executing
      | inr control =>
          rcases switchCase_checkMultiSig selected with rfl | rfl <;> exact absurd control.2 (by decide)
    · exact Nat.zero_le _

theorem switch_pc (state : ScriptState) (verifier : Verifier) (opcode : UInt8) :
    Sat (state.switch verifier opcode).result (fun next => next.pc = state.pc) fun _ => True := by
  have onStack_pc (op : Stack → Except Failure Stack) :
      Sat (state.onStack op).result (fun next => next.pc = state.pc) fun _ => True := by
    rw [onStack, Logged.result_bind]
    exact Sat.after fun _ => rfl
  unfold switch
  cases switchCase opcode with
  | OP_NOP => rfl
  | OP_IF =>
      refine Sat.ite (fun _ => ?_) fun _ => rfl
      refine Sat.after fun _ => ?_
      refine Sat.after fun vch => ?_
      exact Sat.after fun stack => rfl
  | OP_ELSE =>
      show Sat state.opElse _ _
      unfold opElse
      split
      · trivial
      · rfl
  | OP_ENDIF =>
      show Sat state.opEndIf _ _
      unfold opEndIf
      split
      · trivial
      · rfl
  | OP_RETURN => trivial
  | OP_TOALTSTACK =>
      refine Sat.after fun _ => ?_
      refine Sat.after fun vch => ?_
      exact Sat.after fun stack => rfl
  | OP_FROMALTSTACK =>
      refine Sat.after fun _ => ?_
      refine Sat.after fun vch => ?_
      exact Sat.after fun altstack => rfl
  | OP_CODESEPARATOR => rfl
  | OP_CHECKSIG =>
      simp only [opCheckSig, Logged.result_bind, Logged.result_lift, Logged.result_pure]
      refine Sat.after fun _ => ?_
      refine Sat.after fun vchSig => ?_
      refine Sat.after fun vchPubKey => ?_
      refine Sat.after fun fSuccess => ?_
      refine Sat.after fun _ => ?_
      refine Sat.after fun _ => ?_
      exact Sat.after fun _ => rfl
  | OP_CHECKMULTISIG =>
      simp only [opCheckMultiSig, Logged.result_bind, Logged.result_lift, Logged.result_pure]
      refine Sat.after fun _ => ?_
      refine Sat.after fun nKeysCount => ?_
      refine Sat.after fun _ => ?_
      refine Sat.after fun _ => ?_
      refine Sat.after fun _ => ?_
      refine Sat.after fun nSigsCount => ?_
      refine Sat.after fun _ => ?_
      refine Sat.after fun _ => ?_
      refine Sat.after fun scriptCode => ?_
      refine Sat.after fun fSuccess => ?_
      refine Sat.after fun _ => ?_
      exact Sat.after fun _ => rfl
  | default => trivial
  | _ => exact onStack_pc _

/-- The number of an executed OP_n is on the top of the stack. -/
def Announced (lastOpcode : UInt8) (state : ScriptState) : Prop :=
  OP_1 ≤ lastOpcode → lastOpcode ≤ OP_16 → state.fExec = true →
    countAt state.stack 1 = .ok (decodeOP_N lastOpcode)

theorem execute_after (state : ScriptState) (verifier : Verifier) (opcode : UInt8)
    (vchPushValue : Bytes) :
    Sat (state.execute verifier opcode vchPushValue).result
      (fun next => next.pc = state.pc ∧ Announced opcode next) fun _ => True := by
  by_cases number : OP_1 ≤ opcode ∧ opcode ≤ OP_16
  · obtain ⟨selected, noPush, value⟩ := switchCase_number number.1 number.2
    have outside : ¬ (OP_IF ≤ opcode ∧ opcode ≤ OP_ENDIF) := fun control =>
      absurd (UInt8.le_trans control.1 number.2) (by decide)
    unfold execute
    rw [if_neg (fun both => noPush both.2)]
    split
    · rename_i executed
      rw [switch, selected]
      exact ⟨rfl, fun _ _ _ => value⟩
    · rename_i skipped
      refine ⟨rfl, fun _ _ executing => ?_⟩
      exact absurd (Or.inl executing) skipped
  · have silent (next : ScriptState) : Announced opcode next :=
      fun low high _ => absurd ⟨low, high⟩ number
    refine Sat.weaken (?_ : Sat _ (fun next => next.pc = state.pc) _) fun next same => ⟨same, silent next⟩
    unfold execute
    split
    · rfl
    · split
      · exact switch_pc state verifier opcode
      · rfl

theorem step_events_le {lastOpcode : UInt8} {data next : Bytes} (verifier : Verifier)
    (found : getOp state.pc = some (opcode, data, next)) (announced : Announced lastOpcode state) :
    (state.step verifier).events.length ≤ sigOps lastOpcode opcode ∧
      Sat (state.step verifier).result (fun after => after.pc = next ∧ Announced opcode after)
        fun _ => True := by
  have fetched : Sat state.fetch (fun read => read.1 = opcode ∧ read.2.2.pc = next ∧
      Announced lastOpcode read.2.2) fun _ => True := by
    simp only [fetch, found, expect, ok_bind]
    refine Sat.after fun _ => ?_
    refine Sat.after fun _ => ?_
    exact Sat.after fun _ => ⟨rfl, rfl, announced⟩
  constructor
  · refine Logged.events_lift_bind_le fun read run => ?_
    obtain ⟨label, vchPushValue, after⟩ := read
    obtain ⟨same, _, stillAnnounced⟩ := fetched.of_ok run
    rw [← same]
    exact Logged.events_bind_le (m := sigOps lastOpcode label) (n := 0)
      (execute_events_le verifier stillAnnounced) fun _ _ => Nat.le_refl 0
  · simp only [step, Logged.result_bind, Logged.result_lift]
    refine fetched.bind fun read facts => ?_
    obtain ⟨label, vchPushValue, after⟩ := read
    obtain ⟨same, position, _⟩ := facts
    refine (execute_after after verifier label vchPushValue).bind fun last kept => ?_
    refine Sat.after fun _ => ?_
    rw [← same, ← position]
    exact kept

theorem loop_events_le {lastOpcode : UInt8} (verifier : Verifier) (room : Nat)
    (announced : Announced lastOpcode state) :
    (state.loop verifier room).events.length ≤ sigOpLoop true room lastOpcode state.pc := by
  induction room generalizing state lastOpcode with
  | zero => exact Nat.zero_le _
  | succ room ih =>
      rw [loop]
      split
      · exact Nat.zero_le _
      · cases found : getOp state.pc with
        | none =>
            have failed : (state.step verifier).events.length ≤ 0 := by
              refine Logged.events_lift_bind_le fun read run => ?_
              simp [fetch, found, expect] at run
            have stopped : Sat (state.step verifier).result (fun _ => False) fun _ => True := by
              simp only [step, Logged.result_bind, Logged.result_lift, fetch, found]
              trivial
            refine Nat.le_trans (Logged.events_bind_le (n := 0) failed fun next run => ?_) (Nat.zero_le _)
            exact absurd (stopped.of_ok run) not_false
        | some read =>
            obtain ⟨opcode, data, next⟩ := read
            obtain ⟨events, after⟩ := step_events_le verifier found announced
            rw [sigOpLoop_succ found]
            refine Logged.events_bind_le events fun last run => ?_
            obtain ⟨position, nowAnnounced⟩ := after.of_ok run
            rw [← position]
            exact ih nowAnnounced

end

end ScriptState

theorem evalScript_events_le [ScriptDigests] (verifier : Verifier) (stack : Stack) (script : CScript) :
    (evalScript verifier stack script).events.length ≤ script.getSigOpCount true := by
  refine Logged.events_lift_bind_le fun _ _ => ?_
  refine Logged.events_bind_le (m := script.getSigOpCount true) (n := 0) ?_ fun last _ => ?_
  · rw [Logged.events_mapError]
    have none : ScriptState.Announced OP_INVALIDOPCODE (ScriptState.start stack script) := by
      intro _ high
      exact absurd high (by decide)
    exact ScriptState.loop_events_le verifier script.length none
  · exact Logged.events_lift_bind_le fun _ _ => Nat.le_refl 0

/-! ## The redeem script -/

theorem number_getSigOpCount {opcode : UInt8} (selected : switchCase opcode = .OP_1NEGATE) :
    getSigOpCount true (CBigNum.getvch (opcode.toNat - (OP_1.toNat - 1 : Int))) = 0 :=
  forall_byte (p := fun opcode => OP_1NEGATE ≤ opcode ∧ opcode ≤ OP_16 →
    getSigOpCount true (CBigNum.getvch (opcode.toNat - (OP_1.toNat - 1 : Int))) = 0)
    (by decide +kernel) opcode ((switchCase_opcodes opcode).2.2.2.2.1 selected)

theorem push_labels {opcode : UInt8} (literal : ¬ OP_16 < opcode) (operand : ¬ opcode ≤ OP_PUSHDATA4) :
    switchCase opcode = .OP_1NEGATE ∨ switchCase opcode = .default :=
  (switchCase_opcodes opcode).2.2.2.2.2 literal operand

/-- The top of the stack has no more signature operations than `data`. -/
def TopWithin (stack : Stack) (data : Bytes) : Prop :=
  ∀ top rest, stack = top :: rest → getSigOpCount true top ≤ getSigOpCount true data

namespace ScriptState

variable [ScriptDigests] {state : ScriptState}

theorem step_push {opcode : UInt8} {data next : Bytes} (verifier : Verifier)
    (found : getOp state.pc = some (opcode, data, next)) (literal : ¬ OP_16 < opcode)
    (straight : state.vfExec = []) :
    Sat (state.step verifier).result
      (fun after => after.pc = next ∧ after.vfExec = [] ∧ TopWithin after.stack data)
      fun _ => True := by
  have fetched : Sat state.fetch (fun read => read.1 = opcode ∧ read.2.1 = data ∧
      read.2.2.pc = next ∧ read.2.2.vfExec = []) fun _ => True := by
    simp only [fetch, found, expect, ok_bind]
    refine Sat.after fun _ => ?_
    refine Sat.after fun _ => ?_
    exact Sat.after fun _ => ⟨rfl, rfl, rfl, straight⟩
  simp only [step, Logged.result_bind, Logged.result_lift]
  refine fetched.bind fun read facts => ?_
  obtain ⟨label, vchPushValue, after⟩ := read
  obtain ⟨rfl, rfl, rfl, vfExec⟩ := facts
  dsimp only at vfExec literal found ⊢
  have executing : after.fExec = true := by simp [fExec, vfExec]
  have executed : Sat (after.execute verifier label vchPushValue).result
      (fun last => last.pc = after.pc ∧ last.vfExec = [] ∧ TopWithin last.stack vchPushValue)
      fun _ => True := by
    unfold execute
    by_cases operand : label ≤ OP_PUSHDATA4
    · rw [if_pos ⟨executing, operand⟩]
      refine ⟨rfl, vfExec, fun top rest same => ?_⟩
      rw [(List.cons.inj same).1]
    · rw [if_neg (fun both => operand both.2), if_pos (Or.inl executing), switch]
      cases push_labels literal operand with
      | inl number =>
          rw [number]
          refine ⟨rfl, vfExec, fun top rest same => ?_⟩
          rw [← (List.cons.inj same).1, number_getSigOpCount number]
          exact Nat.zero_le _
      | inr reserved =>
          rw [reserved]
          trivial
  refine executed.bind fun last facts => ?_
  exact Sat.after fun _ => facts

theorem loop_pushes {last : ScriptState} {data : Bytes} (verifier : Verifier) (room : Nat)
    (pushes : isPushOnlyLoop room state.pc = true) (straight : state.vfExec = [])
    (top : TopWithin state.stack data) (run : (state.loop verifier room).result = .ok last) :
    ∃ subscript, lastPush room data state.pc = some subscript ∧ TopWithin last.stack subscript := by
  induction room generalizing state data with
  | zero =>
      simp only [loop, Logged.result_pure, Except.ok.injEq] at run
      exact ⟨data, rfl, run ▸ top⟩
  | succ room ih =>
      rw [loop] at run
      rw [isPushOnlyLoop] at pushes
      rw [lastPush]
      by_cases finished : state.pc = []
      · rw [if_pos finished] at run ⊢
        simp only [Logged.result_pure, Except.ok.injEq] at run
        exact ⟨data, rfl, run ▸ top⟩
      · rw [if_neg finished] at run pushes ⊢
        cases found : getOp state.pc with
        | none => simp [found] at pushes
        | some read =>
            obtain ⟨opcode, pushed, next⟩ := read
            simp only [found] at pushes ⊢
            by_cases literal : OP_16 < opcode
            · simp [literal] at pushes
            · rw [if_neg literal] at pushes ⊢
              rw [Logged.result_bind, bind_eq_ok] at run
              obtain ⟨middle, step, rest⟩ := run
              obtain ⟨position, straight, top⟩ := (step_push verifier found literal straight).of_ok step
              rw [← position] at pushes ⊢
              exact ih pushes straight top rest

end ScriptState

section

variable [ScriptDigests]

/-- The redeem script on the stack has no more signature operations than the one that
GetSigOpCount finds in `scriptSig`. -/
theorem redeemScript_getSigOpCount_le {verifier : Verifier} {scriptSig scriptPubKey pubKey2 : CScript}
    {stackCopy : Stack} (run : (evalScript verifier [] scriptSig).result = .ok (pubKey2 :: stackCopy))
    (pushes : scriptSig.isPushOnly = true) (isPayToScriptHash : scriptPubKey.isPayToScriptHash = true) :
    getSigOpCount true pubKey2 ≤ getP2SHSigOpCount scriptPubKey scriptSig := by
  simp only [evalScript, Logged.result_bind, Logged.result_lift, Logged.result_pure, bind_eq_ok,
    Logged.mapError_eq_ok, Except.ok.injEq] at run
  obtain ⟨_, _, last, loop, _, _, stack⟩ := run
  have nothing : TopWithin (ScriptState.start [] scriptSig).stack [] := by
    intro top rest same
    cases same
  have pushes : isPushOnlyLoop scriptSig.length (ScriptState.start [] scriptSig).pc = true := pushes
  obtain ⟨subscript, found, top⟩ := ScriptState.loop_pushes verifier scriptSig.length pushes rfl nothing loop
  have found : lastPush scriptSig.length [] scriptSig = some subscript := found
  simp only [getP2SHSigOpCount, isPayToScriptHash, found, not_true, if_false]
  exact top pubKey2 stackCopy stack

def isRedeem (event : ScriptRun × SigCall) : Bool :=
  event.1 = .redeemScript

theorem run_countP_of_ne (verifier : Verifier) {script : ScriptRun} (stack : Stack) (code : CScript)
    (other : script ≠ .redeemScript) :
    (verifier.run script stack code).events.countP isRedeem ≤ 0 := by
  simp [Verifier.run, isRedeem, List.countP_map, Function.comp_def, other]

theorem verifyRedeemScript_countP_le {verifier : Verifier} {scriptSig scriptPubKey : CScript}
    {stackCopy : Stack} (run : (evalScript verifier [] scriptSig).result = .ok stackCopy)
    (isPayToScriptHash : scriptPubKey.isPayToScriptHash = true) :
    (verifier.verifyRedeemScript stackCopy scriptSig).events.countP isRedeem ≤
      getP2SHSigOpCount scriptPubKey scriptSig := by
  refine Nat.le_trans (List.countP_le_length) (Logged.events_lift_bind_le fun _ literal => ?_)
  rw [require_eq_ok] at literal
  cases stackCopy with
  | nil => exact Nat.zero_le _
  | cons pubKey2 stackCopy =>
      refine Logged.events_bind_le (n := 0) ?_ fun _ _ => Nat.le_refl 0
      rw [Verifier.run, Logged.events_mapEvents, List.length_map]
      exact Nat.le_trans (evalScript_events_le verifier stackCopy pubKey2)
        (redeemScript_getSigOpCount_le run literal isPayToScriptHash)

/-- GetSigOpCount bounds the calls of CheckSig in every run of EvalScript, and with the
scriptSig those in the run of a redeem script. -/
theorem checkSig_calls_le (verifier : Verifier) (stack : Stack) (script scriptSig scriptPubKey : CScript) :
    (evalScript verifier stack script).events.length ≤ script.getSigOpCount true ∧
      (verifier.verifyScript scriptSig scriptPubKey).events.countP isRedeem ≤
        scriptPubKey.getP2SHSigOpCount scriptSig := by
  refine ⟨evalScript_events_le verifier stack script, ?_⟩
  let bound := scriptPubKey.getP2SHSigOpCount scriptSig
  have first : (verifier.run .scriptSig [] scriptSig).events.countP isRedeem ≤ 0 :=
    run_countP_of_ne verifier [] scriptSig (by decide)
  refine Nat.le_trans (Logged.countP_bind_le (n := bound) first fun stackCopy run => ?_) (by omega)
  have second : (verifier.run .scriptPubKey stackCopy scriptPubKey).events.countP isRedeem ≤ 0 :=
    run_countP_of_ne verifier stackCopy scriptPubKey (by decide)
  refine Nat.le_trans (Logged.countP_bind_le (n := bound) second fun stack _ => ?_) (by omega)
  refine Nat.le_trans (Logged.countP_bind_le (m := 0) (n := bound) (by simp) fun _ _ => ?_) (by omega)
  split
  · rename_i isPayToScriptHash
    exact verifyRedeemScript_countP_le run isPayToScriptHash.2
  · exact Nat.zero_le _

end

end BitCrystal
