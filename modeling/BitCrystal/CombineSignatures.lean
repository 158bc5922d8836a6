import BitCrystal.Data.Tables
import BitCrystal.ScriptRuns
import Std.Data.ExtTreeSet

namespace BitCrystal

open Data CScript

/-! # CombineSignatures of script.cpp

`checkSig` is CheckSig for the transaction and the input, with the hash type of each
signature. -/

/-- What Solver leaves in `typeRet` and `vSolutionsRet`, whatever it returns. -/
def CScript.solverLeaves (scriptPubKey : CScript) : txnouttype × List Bytes :=
  if scriptPubKey.isPayToScriptHash then (.TX_SCRIPTHASH, [(scriptPubKey.drop 2).take 20])
  else
    let found := mTemplates.findSome? fun template =>
      (matchTemplate template.2 scriptPubKey []).map fun vSolutions => (template.1, vSolutions)
    found.getD (.TX_NONSTANDARD, [])

/-- The signatures of a scriptSig are added to a set. -/
def gatherSigs (allsigs : Std.ExtTreeSet Bytes) (sigs : Stack) : Std.ExtTreeSet Bytes :=
  sigs.reverse.foldl (fun allsigs v => if v ≠ [] then allsigs.insert v else allsigs) allsigs

/-- The inner loop that matches a signature to one of the keys. -/
def matchSig (checkSig : SigCall → Bool) (scriptPubKey : CScript) (sig : Bytes) (sigs : Std.ExtTreeMap Bytes Bytes) :
    List Bytes → Std.ExtTreeMap Bytes Bytes
  | [] => sigs
  | pubkey :: pubkeys =>
      if pubkey ∈ sigs then matchSig checkSig scriptPubKey sig sigs pubkeys
      else if checkSig ⟨sig, pubkey, scriptPubKey⟩ then sigs.insert pubkey sig
      else matchSig checkSig scriptPubKey sig sigs pubkeys

/-- The loop that builds the merged script: what it appends and `nSigsHave` at its end. -/
def mergeSigs (sigs : Std.ExtTreeMap Bytes Bytes) (nSigsRequired : Nat) : Nat → List Bytes → CScript × Nat
  | nSigsHave, [] => ([], nSigsHave)
  | nSigsHave, pubkey :: pubkeys =>
      if nSigsHave < nSigsRequired then
        match sigs[pubkey]? with
        | none => mergeSigs sigs nSigsRequired nSigsHave pubkeys
        | some sig =>
            let (result, nSigsHave) := mergeSigs sigs nSigsRequired (nSigsHave + 1) pubkeys
            (pushData sig ++ result, nSigsHave)
      else ([], nSigsHave)

def combineMultisig (checkSig : SigCall → Bool) (scriptPubKey : CScript) (vSolutions : List Bytes) (sigs1 sigs2 : Stack) :
    CScript :=
  let allsigs := gatherSigs (gatherSigs ∅ sigs1) sigs2
  let nSigsRequired := ((vSolutions.head?.bind List.head?).getD 0).toNat
  let pubkeys := (vSolutions.drop 1).take (vSolutions.length - 2)
  let sigs := allsigs.toList.foldl (fun sigs sig => matchSig checkSig scriptPubKey sig sigs pubkeys) ∅
  let (result, nSigsHave) := mergeSigs sigs nSigsRequired 0 pubkeys
  [OP_0] ++ result ++ List.replicate (nSigsRequired - nSigsHave) OP_0

/-- CombineSignatures for solved scripts and the stacks that the scriptSigs leave. -/
def combineSolved (checkSig : SigCall → Bool) (scriptPubKey : CScript) (txType : txnouttype) (vSolutions : List Bytes)
    (sigs1 sigs2 : Stack) : CScript :=
  match txType with
  | .TX_NONSTANDARD => if sigs2.length ≤ sigs1.length then pushAll sigs1 else pushAll sigs2
  | .TX_PUBKEY | .TX_PUBKEYHASH =>
      -- signatures are bigger than placeholders or empty scripts
      if sigs1.getLast?.getD [] = [] then pushAll sigs2 else pushAll sigs1
  | .TX_SCRIPTHASH =>
      match sigs1 with
      | [] => pushAll sigs2
      | spk :: rest1 =>
          if spk = [] then pushAll sigs2
          else if sigs2.head?.getD [] = [] then pushAll sigs1
          else
            let (txType2, vSolutions2) := CScript.solverLeaves spk
            combineSolved checkSig spk txType2 vSolutions2 rest1 sigs2.tail ++ pushData spk
  | .TX_MULTISIG => combineMultisig checkSig scriptPubKey vSolutions sigs1 sigs2

/-- CombineSignatures. The scriptSigs are run with `blank`, CheckSig for CTransaction(); `leaves` is
what EvalScript leaves on the stack where it returns false. -/
def combineSignatures [ScriptDigests] (checkSig blank : SigCall → Bool) (leaves : CScript → Stack)
    (scriptPubKey scriptSig1 scriptSig2 : CScript) : CScript :=
  let (txType, vSolutions) := scriptPubKey.solverLeaves
  let stackOf (scriptSig : CScript) : Stack :=
    match (evalScript ⟨SCRIPT_VERIFY_STRICTENC, blank⟩ [] scriptSig).result with
    | .ok stack => stack
    | .error _ => leaves scriptSig
  combineSolved checkSig scriptPubKey txType vSolutions (stackOf scriptSig1) (stackOf scriptSig2)

/-! ## The set and the map -/

theorem solverLeaves_of_solver {script : CScript} {found : txnouttype × List Bytes} (solved : script.solver = some found) :
    script.solverLeaves = found := by
  have scan {templates : List (txnouttype × List UInt8)} (scanned : scanTemplates script templates = some found) :
      (templates.findSome? fun template =>
        (matchTemplate template.2 script []).map fun vSolutions => (template.1, vSolutions)) = some found := by
    induction templates with
    | nil => cases scanned
    | cons template templates ih =>
        rw [scanTemplates] at scanned
        rw [List.findSome?_cons]
        cases matched : matchTemplate template.2 script [] with
        | none =>
            rw [matched] at scanned
            exact ih scanned
        | some vSolutions =>
            rw [matched] at scanned
            simp only [Option.ite_none_left_eq_some] at scanned
            exact scanned.2
  rw [solver] at solved
  rw [solverLeaves]
  split
  · rename_i shape
    rw [if_pos shape] at solved
    exact Option.some.inj solved
  · rename_i shape
    rw [if_neg shape] at solved
    rw [scan solved]
    rfl

theorem mem_gatherSigs {allsigs : Std.ExtTreeSet Bytes} {sigs : Stack} {v : Bytes} :
    v ∈ gatherSigs allsigs sigs ↔ v ∈ allsigs ∨ v ≠ [] ∧ v ∈ sigs := by
  have fold (sigs : List Bytes) (allsigs : Std.ExtTreeSet Bytes) :
      v ∈ sigs.foldl (fun allsigs v => if v ≠ [] then allsigs.insert v else allsigs) allsigs ↔
        v ∈ allsigs ∨ v ≠ [] ∧ v ∈ sigs := by
    induction sigs generalizing allsigs with
    | nil => simp
    | cons sig sigs ih =>
        rw [List.foldl_cons, ih]
        by_cases empty : sig = []
        · rw [if_neg (not_not.mpr empty)]
          have other : v ≠ [] → v ≠ sig := fun nonempty same => nonempty (same.trans empty)
          simp only [List.mem_cons]
          tauto
        · rw [if_pos empty, Std.ExtTreeSet.mem_insert, Std.compare_eq_iff_eq]
          have nonempty : sig = v → v ≠ [] := fun same => same ▸ empty
          simp only [List.mem_cons, @eq_comm _ v sig]
          tauto
  rw [gatherSigs, fold, List.mem_reverse]

theorem gatherSigs_comm (sigs1 sigs2 : Stack) :
    gatherSigs (gatherSigs ∅ sigs1) sigs2 = gatherSigs (gatherSigs ∅ sigs2) sigs1 := by
  refine Std.ExtTreeSet.ext_mem fun v => ?_
  simp only [mem_gatherSigs]
  tauto

section

variable (checkSig : SigCall → Bool) (script : CScript)

theorem matchSig_kept (sig : Bytes) {pubkeys : List Bytes} {sigs : Std.ExtTreeMap Bytes Bytes} {pubkey : Bytes}
    (kept : pubkey ∈ sigs) : pubkey ∈ matchSig checkSig script sig sigs pubkeys := by
  induction pubkeys with
  | nil => exact kept
  | cons first pubkeys ih =>
      rw [matchSig]
      split_ifs
      · exact ih
      · exact Std.ExtTreeMap.mem_insert.mpr (.inr kept)
      · exact ih

theorem matchSig_valid {sig : Bytes} {pubkeys : List Bytes} {sigs : Std.ExtTreeMap Bytes Bytes} {pubkey found : Bytes}
    (lookup : (matchSig checkSig script sig sigs pubkeys)[pubkey]? = some found) :
    sigs[pubkey]? = some found ∨ found = sig ∧ checkSig ⟨sig, pubkey, script⟩ = true := by
  induction pubkeys with
  | nil => exact .inl lookup
  | cons first pubkeys ih =>
      rw [matchSig] at lookup
      split_ifs at lookup with present valid
      · exact ih lookup
      · rw [lookup_insert] at lookup
        split_ifs at lookup with same
        · rw [same, Option.some.inj lookup.symm]
          exact .inr ⟨rfl, valid⟩
        · exact .inl lookup
      · exact ih lookup

theorem matchSig_found {sig : Bytes} {pubkeys : List Bytes} (sigs : Std.ExtTreeMap Bytes Bytes) {pubkey : Bytes}
    (listed : pubkey ∈ pubkeys) (valid : checkSig ⟨sig, pubkey, script⟩ = true)
    (only : ∀ other ∈ pubkeys, checkSig ⟨sig, other, script⟩ = true → other = pubkey) :
    pubkey ∈ matchSig checkSig script sig sigs pubkeys := by
  induction pubkeys with
  | nil => cases listed
  | cons first pubkeys ih =>
      have later (other : first ≠ pubkey) : pubkey ∈ matchSig checkSig script sig sigs pubkeys :=
        ih (List.mem_of_ne_of_mem other.symm listed) fun key member => only key (List.mem_cons_of_mem first member)
      rw [matchSig]
      by_cases here : first = pubkey
      · subst here
        split_ifs with present
        · exact matchSig_kept checkSig script sig present
        · exact Std.ExtTreeMap.mem_insert_self
      · split_ifs with present matched
        · exact later here
        · exact absurd (only first List.mem_cons_self matched) here
        · exact later here

theorem matchSigs_valid {pubkeys allsigs : List Bytes} {sigs : Std.ExtTreeMap Bytes Bytes} {pubkey found : Bytes}
    (lookup : (allsigs.foldl (fun sigs sig => matchSig checkSig script sig sigs pubkeys) sigs)[pubkey]? = some found) :
    sigs[pubkey]? = some found ∨ found ∈ allsigs ∧ checkSig ⟨found, pubkey, script⟩ = true := by
  induction allsigs generalizing sigs with
  | nil => exact .inl lookup
  | cons sig allsigs ih =>
      rcases ih lookup with before | ⟨member, valid⟩
      · rcases matchSig_valid checkSig script before with older | ⟨rfl, valid⟩
        · exact .inl older
        · exact .inr ⟨List.mem_cons_self, valid⟩
      · exact .inr ⟨List.mem_cons_of_mem sig member, valid⟩

theorem matchSigs_kept {pubkeys allsigs : List Bytes} {sigs : Std.ExtTreeMap Bytes Bytes} {pubkey : Bytes}
    (kept : pubkey ∈ sigs) : pubkey ∈ allsigs.foldl (fun sigs sig => matchSig checkSig script sig sigs pubkeys) sigs := by
  induction allsigs generalizing sigs with
  | nil => exact kept
  | cons sig allsigs ih => exact ih (matchSig_kept checkSig script sig kept)

theorem matchSigs_found {pubkeys allsigs : List Bytes} (sigs : Std.ExtTreeMap Bytes Bytes) {sig pubkey : Bytes}
    (member : sig ∈ allsigs) (listed : pubkey ∈ pubkeys) (valid : checkSig ⟨sig, pubkey, script⟩ = true)
    (only : ∀ other ∈ pubkeys, checkSig ⟨sig, other, script⟩ = true → other = pubkey) :
    pubkey ∈ allsigs.foldl (fun sigs sig => matchSig checkSig script sig sigs pubkeys) sigs := by
  induction allsigs generalizing sigs with
  | nil => cases member
  | cons first allsigs ih =>
      rcases List.mem_cons.mp member with rfl | later
      · rw [List.foldl_cons]
        exact matchSigs_kept checkSig script (matchSig_found checkSig script sigs listed valid only)
      · exact ih _ later

end

/-! ## The merged script -/

/-- The signatures that are taken: those of the first keys that have one. -/
def chosenSigs (sigs : Std.ExtTreeMap Bytes Bytes) (nSigsRequired : Nat) (pubkeys : List Bytes) : List Bytes :=
  (pubkeys.filterMap (sigs[·]?)).take nSigsRequired

theorem mergeSigs_eq (sigs : Std.ExtTreeMap Bytes Bytes) (nSigsRequired nSigsHave : Nat) (pubkeys : List Bytes) :
    mergeSigs sigs nSigsRequired nSigsHave pubkeys =
      ((chosenSigs sigs (nSigsRequired - nSigsHave) pubkeys).flatMap pushData,
        nSigsHave + (chosenSigs sigs (nSigsRequired - nSigsHave) pubkeys).length) := by
  induction pubkeys generalizing nSigsHave with
  | nil => simp [mergeSigs, chosenSigs]
  | cons pubkey pubkeys ih =>
      rw [mergeSigs]
      by_cases less : nSigsHave < nSigsRequired
      · rw [if_pos less]
        cases found : sigs[pubkey]? with
        | none =>
            simp only [ih, chosenSigs, List.filterMap_cons, found]
        | some sig =>
            have left : nSigsRequired - nSigsHave = nSigsRequired - (nSigsHave + 1) + 1 := by omega
            simp only [ih, chosenSigs, List.filterMap_cons, found, left, List.take_succ_cons, List.flatMap_cons,
              List.length_cons]
            refine Prod.ext rfl ?_
            simp only
            omega
      · have none : nSigsRequired - nSigsHave = 0 := by omega
        rw [if_neg less, none]
        simp [chosenSigs]

theorem pushAll_eq_flatMap (values : Stack) : pushAll values = values.reverse.flatMap pushData := by
  rw [pushAll_eq, encode, List.flatMap_map]
  rfl

/-- The stack of a merged script: placeholders above the signatures above the unused element. -/
def mergedStack (nSigsRequired : Nat) (chosen : List Bytes) : Stack :=
  List.replicate (nSigsRequired - chosen.length) [] ++ (chosen.reverse ++ [[]])

theorem combineMultisig_eq (checkSig : SigCall → Bool) (script : CScript) (m : UInt8) (keys : List Bytes) (n : Bytes)
    (sigs1 sigs2 : Stack) :
    combineMultisig checkSig script ([m] :: (keys ++ [n])) sigs1 sigs2 =
      pushAll (mergedStack m.toNat (chosenSigs
        ((gatherSigs (gatherSigs ∅ sigs1) sigs2).toList.foldl (fun sigs sig => matchSig checkSig script sig sigs keys) ∅)
        m.toNat keys)) := by
  have pubkeys : (([m] :: (keys ++ [n])).drop 1).take (([m] :: (keys ++ [n])).length - 2) = keys := by simp
  have required : ((([m] :: (keys ++ [n])).head?.bind List.head?).getD 0).toNat = m.toNat := rfl
  have placeholders (count : Nat) : (List.replicate count ([] : Bytes)).flatMap pushData = List.replicate count OP_0 := by
    induction count with
    | zero => rfl
    | succ count ih =>
        rw [List.replicate_succ, List.flatMap_cons, ih]
        rfl
  rw [combineMultisig, pubkeys, required, mergeSigs_eq, pushAll_eq_flatMap, mergedStack]
  simp only [Nat.sub_zero, Nat.zero_add, List.reverse_append, List.reverse_replicate, List.reverse_reverse,
    List.flatMap_append, placeholders]
  rfl

/-! ## What is combined -/

def signed (checkSig : SigCall → Bool) (script : CScript) (held : Stack) (key : Bytes) : Bool :=
  held.any fun sig => sig ≠ [] && checkSig ⟨sig, key, script⟩

theorem signed_iff {checkSig : SigCall → Bool} {script : CScript} {held : Stack} {key : Bytes} :
    signed checkSig script held key = true ↔ ∃ sig ∈ held, sig ≠ [] ∧ checkSig ⟨sig, key, script⟩ = true := by
  simp [signed]

/-- The signatures on a stack: each one that is valid for a key is so for one of the listed keys
only, is encoded as the verification flags ask for, and is not in the script. -/
structure HoldsSignatures (verifier : Verifier) (script : CScript) (keys : List Bytes) (sigs : Stack) : Prop where
  valid : ∀ sig ∈ sigs, sig ≠ [] → ∀ key ∈ keys, verifier.checkSig ⟨sig, key, script⟩ = true →
    verifier.canonical sig key = .ok true ∧ script.findAndDelete (pushData sig) = script
  oneKey : ∀ sig ∈ sigs, sig ≠ [] → ∀ (i j : Nat) (key other : Bytes), keys[i]? = some key → keys[j]? = some other →
    verifier.checkSig ⟨sig, key, script⟩ = true → verifier.checkSig ⟨sig, other, script⟩ = true → i = j

namespace HoldsSignatures

variable {verifier : Verifier} {script : CScript} {keys : List Bytes} {sigs1 sigs2 : Stack}

theorem append (holds1 : HoldsSignatures verifier script keys sigs1) (holds2 : HoldsSignatures verifier script keys sigs2) :
    HoldsSignatures verifier script keys (sigs1 ++ sigs2) where
  valid sig member := (List.mem_append.mp member).elim (holds1.valid sig) (holds2.valid sig)
  oneKey sig member := (List.mem_append.mp member).elim (holds1.oneKey sig) (holds2.oneKey sig)

theorem nodup_signed {sigs : Stack} (holds : HoldsSignatures verifier script keys sigs) : (keys.filter (signed verifier.checkSig script sigs)).Nodup := by
  rw [List.Nodup, List.pairwise_filter, List.pairwise_iff_getElem]
  intro i j firstInside secondInside less isSigned _ same
  obtain ⟨sig, member, nonempty, valid⟩ := signed_iff.mp isSigned
  have place := holds.oneKey sig member nonempty i j _ _ (List.getElem?_eq_getElem firstInside)
    (List.getElem?_eq_getElem secondInside) valid (same ▸ valid)
  omega

end HoldsSignatures

theorem filterMap_partners {α β : Type} {f : β → Option α} {related : α → β → Prop} {bs : List β}
    (relates : ∀ b ∈ bs, ∀ a, f b = some a → related a b) :
    List.Forall₂ related (bs.filterMap f) (bs.filter fun b => (f b).isSome) := by
  induction bs with
  | nil => exact .nil
  | cons b bs ih =>
      have others := ih fun later member => relates later (List.mem_cons_of_mem b member)
      cases found : f b with
      | none => simpa [List.filterMap_cons, List.filter_cons, found] using others
      | some a =>
          have first := relates b List.mem_cons_self a found
          simpa [List.filterMap_cons, List.filter_cons, found] using And.intro first others

section

variable {verifier : Verifier} {script : CScript} {keys : List Bytes} {sigs1 sigs2 : Stack}

/-- The map of CombineMultisig from keys to signatures. -/
def signatureMap (checkSig : SigCall → Bool) (script : CScript) (keys : List Bytes) (sigs1 sigs2 : Stack) :
    Std.ExtTreeMap Bytes Bytes :=
  (gatherSigs (gatherSigs ∅ sigs1) sigs2).toList.foldl (fun sigs sig => matchSig checkSig script sig sigs keys) ∅

theorem mem_allsigs {v : Bytes} :
    v ∈ (gatherSigs (gatherSigs ∅ sigs1) sigs2).toList ↔ v ∈ sigs1 ++ sigs2 ∧ v ≠ [] := by
  rw [Std.ExtTreeSet.mem_toList, mem_gatherSigs, mem_gatherSigs, List.mem_append]
  simp only [Std.ExtTreeSet.not_mem_empty, false_or]
  tauto

theorem signatureMap_valid {key sig : Bytes}
    (found : (signatureMap verifier.checkSig script keys sigs1 sigs2)[key]? = some sig) :
    (sig ∈ sigs1 ++ sigs2 ∧ sig ≠ []) ∧ verifier.checkSig ⟨sig, key, script⟩ = true := by
  rcases matchSigs_valid verifier.checkSig script found with before | ⟨member, valid⟩
  · simp at before
  · exact ⟨mem_allsigs.mp member, valid⟩

theorem signatureMap_isSome (holds : HoldsSignatures verifier script keys (sigs1 ++ sigs2)) {key : Bytes} (listed : key ∈ keys) :
    ((signatureMap verifier.checkSig script keys sigs1 sigs2)[key]?).isSome =
      signed verifier.checkSig script (sigs1 ++ sigs2) key := by
  rw [Bool.eq_iff_iff, signed_iff, Option.isSome_iff_exists]
  constructor
  · rintro ⟨sig, found⟩
    obtain ⟨⟨member, nonempty⟩, valid⟩ := signatureMap_valid found
    exact ⟨sig, member, nonempty, valid⟩
  · rintro ⟨sig, member, nonempty, valid⟩
    have only (other : Bytes) (also : other ∈ keys) (passes : verifier.checkSig ⟨sig, other, script⟩ = true) : other = key := by
      obtain ⟨i, atI⟩ := List.getElem?_of_mem also
      obtain ⟨j, atJ⟩ := List.getElem?_of_mem listed
      have place := holds.oneKey sig member nonempty i j other key atI atJ passes valid
      rw [place, atJ] at atI
      exact (Option.some.inj atI).symm
    have found := matchSigs_found verifier.checkSig script ∅ (mem_allsigs.mpr ⟨member, nonempty⟩) listed valid only
    exact Option.isSome_iff_exists.mp (Std.ExtTreeMap.mem_iff_isSome_getElem?.mp found)

/-- The signatures that are taken: by as many keys as are signed and required, in their order. -/
theorem chosenSigs_facts (holds : HoldsSignatures verifier script keys (sigs1 ++ sigs2)) (nSigsRequired : Nat) :
    let chosen := chosenSigs (signatureMap verifier.checkSig script keys sigs1 sigs2) nSigsRequired keys
    chosen.length = min nSigsRequired
        {key ∈ keys.toFinset | signed verifier.checkSig script (sigs1 ++ sigs2) key = true}.card ∧
      (∀ sig ∈ chosen, sig ∈ sigs1 ++ sigs2) ∧ Unlocks verifier script chosen keys := by
  intro chosen
  let found := signatureMap verifier.checkSig script keys sigs1 sigs2
  have partners : List.Forall₂ (fun sig key => verifier.passes script sig key = true) (keys.filterMap (found[·]?))
      (keys.filter fun key => (found[key]?).isSome) := by
    refine filterMap_partners fun key listed sig at' => ?_
    obtain ⟨⟨held, nonempty⟩, valid⟩ := signatureMap_valid at'
    rw [Verifier.passes, valid, Bool.and_true, decide_eq_true_eq]
    exact (holds.valid sig held nonempty key listed valid).1
  have same : (keys.filter fun key => (found[key]?).isSome) = keys.filter (signed verifier.checkSig script (sigs1 ++ sigs2)) :=
    List.filter_congr fun key listed => signatureMap_isSome holds listed
  have card : {key ∈ keys.toFinset | signed verifier.checkSig script (sigs1 ++ sigs2) key = true}.card =
      (keys.filter (signed verifier.checkSig script (sigs1 ++ sigs2))).length := by
    rw [← List.toFinset_filter, List.toFinset_card_of_nodup holds.nodup_signed]
  have lookup {sig : Bytes} (member : sig ∈ chosen) : ∃ key ∈ keys, found[key]? = some sig := by
    obtain ⟨key, listed, at'⟩ := List.mem_filterMap.mp (List.mem_of_mem_take member)
    exact ⟨key, listed, at'⟩
  refine ⟨?_, fun sig member => ?_, ?_, fun sig member => ?_⟩
  · rw [card, ← same, ← partners.length_eq]
    exact List.length_take
  · obtain ⟨key, -, at'⟩ := lookup member
    exact (signatureMap_valid at').1.1
  · rw [matching_iff_sublist, List.sublistForall₂_iff]
    exact ⟨(keys.filter fun key => (found[key]?).isSome).take nSigsRequired, List.forall₂_take nSigsRequired partners,
      (List.take_sublist _ _).trans List.filter_sublist⟩
  · obtain ⟨key, listed, at'⟩ := lookup member
    obtain ⟨⟨held, nonempty⟩, valid⟩ := signatureMap_valid at'
    exact (holds.valid sig held nonempty key listed valid).2

end

theorem pushAll_cons (v : Bytes) (values : Stack) : pushAll (v :: values) = pushAll values ++ pushData v := by
  rw [pushAll_eq_flatMap, pushAll_eq_flatMap, List.reverse_cons, List.flatMap_append, List.flatMap_singleton]

theorem multisig_ne_nil {script : CScript} {m : UInt8} {keys : List Bytes} (operations : MultisigTokens script m keys) :
    script ≠ [] := by
  rw [operations.script_eq]
  exact List.append_ne_nil_of_right_ne_nil _ operations.checkMultiSig_wellFormed.bytes_ne_nil

theorem evalScript_small [ScriptDigests] {verifier : Verifier} {script : CScript} {stack : Stack}
    (run : (evalScript verifier [] script).result = .ok stack) : Small stack := by
  have within : Stack.Within [] := ⟨Nat.zero_le _, Small.nil⟩
  obtain ⟨turns, last, reached, -, rfl⟩ := (evalScript_sat verifier within script).of_ok run
  exact (reached.limits (.start within script)).1.stack

section

variable [ScriptDigests] {script scriptPubKey scriptSig1 scriptSig2 : CScript} {top sigs1 sigs2 : Stack} {m : UInt8}
  {keys : List Bytes} {n : Bytes} {blank : SigCall → Bool}

theorem combineSignatures_eq (checkSig : SigCall → Bool) (leaves : CScript → Stack)
    (solved : script.solver = some (.TX_MULTISIG, [m] :: (keys ++ [n]))) (locks : Locks script scriptPubKey top)
    (run1 : (evalScript ⟨SCRIPT_VERIFY_STRICTENC, blank⟩ [] scriptSig1).result = .ok (top ++ sigs1))
    (run2 : (evalScript ⟨SCRIPT_VERIFY_STRICTENC, blank⟩ [] scriptSig2).result = .ok (top ++ sigs2)) :
    combineSignatures checkSig blank leaves scriptPubKey scriptSig1 scriptSig2 =
      pushAll (top ++ mergedStack m.toNat (chosenSigs (signatureMap checkSig script keys sigs1 sigs2) m.toNat keys)) := by
  have left := solverLeaves_of_solver solved
  simp only [combineSignatures, run1, run2]
  cases locks with
  | bare =>
      simp only [List.nil_append, left, combineSolved]
      exact combineMultisig_eq checkSig script m keys n sigs1 sigs2
  | scriptHash =>
      obtain ⟨operations⟩ := exists_multisigTokens solved
      have nonempty := multisig_ne_nil operations
      have shape : (setDestination (.CScriptID (ScriptDigests.Hash160 script))).isPayToScriptHash = true := rfl
      rw [solverLeaves, if_pos shape]
      simp only [List.singleton_append, combineSolved, if_neg nonempty, List.head?_cons, Option.getD_some, left,
        List.tail_cons]
      rw [combineMultisig_eq checkSig script m keys n sigs1 sigs2, pushAll_cons]
      rfl

omit [ScriptDigests] in
theorem signatureMap_comm (checkSig : SigCall → Bool) : signatureMap checkSig script keys sigs1 sigs2 =
    signatureMap checkSig script keys sigs2 sigs1 := by
  rw [signatureMap, gatherSigs_comm]
  rfl

/-- Combining loses no signature: the merged scriptSig has as many as are required and held, by
different keys, in the order of the keys; with enough of them it passes; and the two scriptSigs
can be exchanged. -/
theorem combineSignatures_complete (verifier : Verifier) (leaves : CScript → Stack)
    (solved : script.solver = some (.TX_MULTISIG, [m] :: (keys ++ [n]))) (locks : Locks script scriptPubKey top)
    (run1 : (evalScript ⟨SCRIPT_VERIFY_STRICTENC, blank⟩ [] scriptSig1).result = .ok (top ++ sigs1))
    (run2 : (evalScript ⟨SCRIPT_VERIFY_STRICTENC, blank⟩ [] scriptSig2).result = .ok (top ++ sigs2))
    (holds1 : HoldsSignatures verifier script keys sigs1) (holds2 : HoldsSignatures verifier script keys sigs2) :
    let combined := combineSignatures verifier.checkSig blank leaves scriptPubKey scriptSig1 scriptSig2
    let keysSigned := {key ∈ keys.toFinset | signed verifier.checkSig script (sigs1 ++ sigs2) key = true}.card
    (∃ chosen : List Bytes, combined = pushAll (top ++ mergedStack m.toNat chosen) ∧
      chosen.length = min m.toNat keysSigned ∧ (∀ sig ∈ chosen, sig ∈ sigs1 ++ sigs2) ∧
      Matching (verifier.passes script) chosen keys) ∧
    (m.toNat ≤ keysSigned → (verifier.verifyScript combined scriptPubKey).result = .ok ()) ∧
    combineSignatures verifier.checkSig blank leaves scriptPubKey scriptSig2 scriptSig1 = combined := by
  intro combined keysSigned
  have combined_eq : combined = _ := combineSignatures_eq verifier.checkSig leaves solved locks run1 run2
  obtain ⟨length, held, unlocks⟩ := chosenSigs_facts (holds1.append holds2) m.toNat
  refine ⟨⟨_, combined_eq, length, held, unlocks.matching⟩, fun enough => ?_, ?_⟩
  · have count := length.trans (min_eq_left enough)
    have stack_eq : mergedStack m.toNat (chosenSigs (signatureMap verifier.checkSig script keys sigs1 sigs2) m.toNat keys) =
        (chosenSigs (signatureMap verifier.checkSig script keys sigs1 sigs2) m.toNat keys).reverse ++ [[]] := by
      rw [mergedStack, count, Nat.sub_self]
      rfl
    rw [combined_eq, stack_eq]
    have small1 := evalScript_small run1
    have small2 := evalScript_small run2
    refine verifyScript_unlocks solved locks count unlocks fun vch member => ?_
    rcases List.mem_append.mp member with redeem | rest
    · exact small1 vch (List.mem_append_left _ redeem)
    · rcases List.mem_append.mp rest with chosen | unused
      · rcases List.mem_append.mp (held vch (List.mem_reverse.mp chosen)) with first | second
        · exact small1 vch (List.mem_append_right _ first)
        · exact small2 vch (List.mem_append_right _ second)
      · rw [List.mem_singleton.mp unused]
        exact Nat.zero_le _
  · rw [combined_eq, combineSignatures_eq verifier.checkSig leaves solved locks run2 run1, signatureMap_comm]

end

namespace Sample

def multisigKey1 : Bytes := List.replicate 33 2
def multisigKey2 : Bytes := List.replicate 33 3

def twoOfTwo : CScript := [OP_2] ++ pushData multisigKey1 ++ pushData multisigKey2 ++ [OP_2, OP_CHECKMULTISIG]

/-- A signature is the first byte of its key. -/
def firstByte (call : SigCall) : Bool := call.vchSig = call.vchPubKey.take 1

/-- What the holders of the two keys have signed, the second one above a placeholder. -/
def multisigSigs1 : Stack := [[2], []]
def multisigSigs2 : Stack := [[3], [], []]

theorem holds_sigs {sigs : Stack} (each : ∀ sig ∈ sigs, sig ∈ [[], [2], [3]]) :
    HoldsSignatures ⟨SCRIPT_VERIFY_P2SH, firstByte⟩ twoOfTwo [multisigKey1, multisigKey2] sigs where
  valid sig member _ key _ _ := by
    have outside : ∀ sig ∈ ([[], [2], [3]] : List Bytes), twoOfTwo.findAndDelete (pushData sig) = twoOfTwo := by decide
    exact ⟨rfl, outside sig (each sig member)⟩
  oneKey sig _ _ i j key other atI atJ first second := by
    have apart : multisigKey1.take 1 ≠ multisigKey2.take 1 := by decide
    obtain ⟨insideI, rfl⟩ := List.getElem?_eq_some_iff.mp atI
    obtain ⟨insideJ, rfl⟩ := List.getElem?_eq_some_iff.mp atJ
    have same := (of_decide_eq_true first).symm.trans (of_decide_eq_true second)
    have boundI : i < 2 := insideI
    have boundJ : j < 2 := insideJ
    interval_cases i <;> interval_cases j
    · rfl
    · exact absurd same apart
    · exact absurd same.symm apart
    · rfl

/-- Below P2SH, the two signatures are merged into a scriptSig that passes, in either order. -/
theorem combineSignatures_complete_twoOfTwo :
    let combined := combineSignatures firstByte firstByte (fun _ => []) (setDestination (.CScriptID (ScriptDigests.Hash160 twoOfTwo)))
      (pushAll (twoOfTwo :: multisigSigs1)) (pushAll (twoOfTwo :: multisigSigs2))
    ((⟨SCRIPT_VERIFY_P2SH, firstByte⟩ : Verifier).verifyScript combined
        (setDestination (.CScriptID (ScriptDigests.Hash160 twoOfTwo)))).result = .ok () ∧
      combineSignatures firstByte firstByte (fun _ => []) (setDestination (.CScriptID (ScriptDigests.Hash160 twoOfTwo)))
        (pushAll (twoOfTwo :: multisigSigs2)) (pushAll (twoOfTwo :: multisigSigs1)) = combined := by
  have run1 := evalScript_pushAll ⟨SCRIPT_VERIFY_STRICTENC, firstByte⟩
    (show Small ([twoOfTwo] ++ multisigSigs1) by unfold Small; decide) (by decide)
  have run2 := evalScript_pushAll ⟨SCRIPT_VERIFY_STRICTENC, firstByte⟩
    (show Small ([twoOfTwo] ++ multisigSigs2) by unfold Small; decide) (by decide)
  have solved : twoOfTwo.solver = some (.TX_MULTISIG, [2] :: ([multisigKey1, multisigKey2] ++ [[2]])) := by decide
  obtain ⟨-, passes, exchanged⟩ := combineSignatures_complete ⟨SCRIPT_VERIFY_P2SH, firstByte⟩ (fun _ => [])
    solved .scriptHash run1 run2 (holds_sigs (by decide)) (holds_sigs (by decide))
  exact ⟨passes (by decide), exchanged⟩

end Sample

end BitCrystal
