import BitCrystal.AddrManCheck

namespace BitCrystal

open Data

/-! # Runs of the address manager -/

namespace CAddrMan

/-- The loop of Select_ over the tried or the new buckets, for `turns` turns from turn `n` on. Which
entries it takes is decided by chance and in floating point. -/
def selectFrom (s : CAddrMan) (fTried : Bool) (rnd : Nat → Nat) (takes : Nat → CAddrInfo → Bool) :
    Nat → Nat → Option (Option CAddrInfo)
  | 0, _ => some none
  | turns + 1, n => do
      let bucket := if fTried then s.vvTried (Fin.ofNat _ (rnd (2 * n)))
        else (s.vvNew (Fin.ofNat _ (rnd (2 * n)))).sort (· ≤ ·)
      if bucket.length = 0 then s.selectFrom fTried rnd takes turns (n + 1)
      else
        let nId ← bucket[getRandInt (rnd (2 * n + 1)) bucket.length]?
        let info ← s.mapInfo[nId]?
        if takes n info then some (some info) else s.selectFrom fTried rnd takes turns (n + 1)

def select_ (s : CAddrMan) (fTried : Bool) (rnd : Nat → Nat) (takes : Nat → CAddrInfo → Bool) (turns : Nat) :
    Option (Option CAddrInfo) :=
  if s.vRandom.length = 0 then some none else s.selectFrom fTried rnd takes turns 0

/-- A call with its arguments, the time at which it is made and its random numbers. -/
inductive Call where
  | add (vAddr : List CAddress) (source : CNetAddr) (nTimePenalty nNow : Int) (rnd : Nat → Nat → Nat)
  | good (addr : CService) (nTime : Int) (rnd : Nat → Nat)
  | attempt (addr : CService) (nTime : Int)
  | connected (addr : CService) (nTime : Int)
  | select (fTried : Bool) (rnd : Nat → Nat) (takes : Nat → CAddrInfo → Bool) (turns : Nat)
  | getAddr (rnd : Nat → Nat)

/-- The number of addresses that a call may create. -/
def Call.size : Call → Nat
  | .add vAddr _ _ _ _ => vAddr.length
  | _ => 0

/-- The times are those of a clock that runs after 1970. -/
def Call.Timely : Call → Prop
  | .good _ nTime _ => 0 < nTime
  | .attempt _ nTime => 0 ≤ nTime
  | _ => True

section

variable [Hashing] {s next : CAddrMan}

/-- The state after a call, unless an assertion fails. -/
def perform (s : CAddrMan) : Call → Option CAddrMan
  | .add vAddr source nTimePenalty nNow rnd => s.add rnd nNow source nTimePenalty vAddr
  | .good addr nTime rnd => s.good_ rnd addr nTime
  | .attempt addr nTime => some (s.attempt_ addr nTime)
  | .connected addr nTime => some (s.connected_ addr nTime)
  | .select fTried rnd takes turns => (s.select_ fTried rnd takes turns).map fun _ => s
  | .getAddr rnd => (s.getAddr_ rnd).map Prod.fst

def run (s : CAddrMan) : List Call → Option CAddrMan
  | [] => some s
  | call :: rest => do (← s.perform call).run rest

omit [Hashing] in
theorem selectFrom_some {fTried : Bool} {rnd : Nat → Nat} {takes : Nat → CAddrInfo → Bool} {turns n : Nat}
    (consistent : s.Consistent) : ∃ found, s.selectFrom fTried rnd takes turns n = some found := by
  induction turns generalizing n with
  | zero => exact ⟨none, rfl⟩
  | succ turns ih =>
      unfold selectFrom
      have known : ∀ nId ∈ (if fTried then s.vvTried (Fin.ofNat _ (rnd (2 * n)))
          else (s.vvNew (Fin.ofNat _ (rnd (2 * n)))).sort (· ≤ ·)), ∃ info, s.mapInfo[nId]? = some info := by
        intro nId member
        split at member
        · obtain ⟨info, found, -⟩ := consistent.of_tried member
          exact ⟨info, found⟩
        · obtain ⟨info, found, -⟩ := (consistent.placed nId).of_mem le_rfl ((Finset.mem_sort (· ≤ ·)).mp member)
          exact ⟨info, found⟩
      revert known
      generalize (if fTried then s.vvTried (Fin.ofNat _ (rnd (2 * n)))
        else (s.vvNew (Fin.ofNat _ (rnd (2 * n)))).sort (· ≤ ·)) = bucket
      intro known
      simp only
      split
      · exact ih
      · rename_i nonempty
        have within : getRandInt (rnd (2 * n + 1)) bucket.length < bucket.length :=
          Nat.mod_lt _ (Nat.pos_of_ne_zero nonempty)
        obtain ⟨info, found⟩ := known _ (List.getElem_mem within)
        simp only [List.getElem?_eq_getElem within, found, Option.bind_eq_bind, Option.bind_some]
        split
        · exact ⟨some info, rfl⟩
        · exact ih

theorem perform_spec (consistent : s.Consistent) (call : Call) :
    ∃ next, s.perform call = some next ∧ next.Consistent ∧ (call.Timely → s.Timely → next.Timely) ∧
      next.nIdCount ≤ s.nIdCount + call.size := by
  cases call with
  | add vAddr source nTimePenalty nNow rnd =>
      obtain ⟨next, done, consistent', timely, count⟩ :=
        add_many_spec rnd nNow source nTimePenalty vAddr consistent
      exact ⟨next, done, consistent', fun _ => timely, count⟩
  | good addr nTime rnd =>
      obtain ⟨next, done, consistent', count, timely⟩ := good_spec rnd addr nTime consistent
      exact ⟨next, done, consistent', timely, by rw [count]; exact Int.le_add_of_nonneg_right (Int.natCast_nonneg _)⟩
  | attempt addr nTime =>
      obtain ⟨consistent', count, timely⟩ := attempt_spec addr nTime consistent
      exact ⟨_, rfl, consistent', timely, by rw [count]; exact Int.le_add_of_nonneg_right (Int.natCast_nonneg _)⟩
  | connected addr nTime =>
      obtain ⟨consistent', inherits⟩ := connected_spec addr nTime consistent
      refine ⟨_, rfl, consistent', fun _ => inherits.timely, ?_⟩
      rw [inherits.nIdCount]
      exact Int.le_add_of_nonneg_right (Int.natCast_nonneg _)
  | select fTried rnd takes turns =>
      have looked : ∃ found, s.select_ fTried rnd takes turns = some found := by
        unfold select_
        split
        · exact ⟨none, rfl⟩
        · exact selectFrom_some consistent
      obtain ⟨found, looked⟩ := looked
      exact ⟨s, by rw [perform, looked, Option.map_some], consistent, fun _ => id,
        Int.le_add_of_nonneg_right (Int.natCast_nonneg _)⟩
  | getAddr rnd =>
      obtain ⟨next, vAddr, done, consistent', inherits⟩ := getAddr_spec rnd consistent
      refine ⟨next, by rw [perform, done, Option.map_some], consistent', fun _ => inherits.timely, ?_⟩
      rw [inherits.nIdCount]
      exact Int.le_add_of_nonneg_right (Int.natCast_nonneg _)

theorem run_spec (consistent : s.Consistent) (calls : List Call) :
    ∃ next, s.run calls = some next ∧ next.Consistent ∧
      ((∀ call ∈ calls, call.Timely) → s.Timely → next.Timely) ∧
      next.nIdCount ≤ s.nIdCount + ((calls.map Call.size).sum : Nat) := by
  induction calls generalizing s with
  | nil => exact ⟨s, rfl, consistent, fun _ => id, by simp⟩
  | cons call rest ih =>
      obtain ⟨mid, done, consistent', timely, count⟩ := perform_spec consistent call
      obtain ⟨next, others, final, timely', count'⟩ := ih consistent'
      refine ⟨next, ?_, final, ?_, ?_⟩
      · simp only [run, done, Option.bind_eq_bind, Option.bind_some]
        exact others
      · intro clocks before
        exact timely' (fun call later => clocks call (List.mem_cons_of_mem _ later))
          (timely (clocks call List.mem_cons_self) before)
      · rw [List.map_cons, List.sum_cons]
        push_cast at count' ⊢
        omega

omit [Hashing] in
theorem empty_consistent (nKey : Bytes) : (empty nKey).Consistent where
  positions := by
    intro nId i
    simp [position, empty]
  addresses := by
    intro ip nId
    simp [address, empty]
  old := by
    intro nId _
    simp [empty]
  nTried := by simp [empty]
  total := by simp [empty]
  newSize := by simp [empty]
  triedSize := by simp [empty]
  placed := by
    intro nId
    simp [PlacedAt, Placed, status, references, occurrences, empty]

/-- The tables agree after every run of calls. Check_ then answers 0 if no entry has a time that it
refuses, and none has one when the times of the calls are positive. -/
theorem addrMan_consistent (nKey : Bytes) (calls : List Call) :
    ∃ s, (empty nKey).run calls = some s ∧ s.Consistent ∧ (s.check_ = .ok () ↔ s.Timely) ∧
      ((∀ call ∈ calls, call.Timely) → s.check_ = .ok ()) ∧
      s.nIdCount ≤ ((calls.map Call.size).sum : Nat) := by
  obtain ⟨s, done, consistent, timely, count⟩ := run_spec (empty_consistent nKey) calls
  have start : (empty nKey).Timely := by
    intro nId info found
    simp [empty] at found
  refine ⟨s, done, consistent, consistent.check_eq_ok, ?_, ?_⟩
  · exact fun clocks => consistent.check_eq_ok.mpr (timely clocks start)
  · rwa [show (empty nKey).nIdCount = 0 from rfl, Int.zero_add] at count

end

open Sample in
/-- An entry that is good at the time 0 is refused by Check_. -/
theorem addrMan_refused :
    ((empty []).run [.add [⟨⟨0xffff08080808, 9333⟩, 1, 0⟩] 0xffff09090909 0 0 fun _ _ => 0,
      .good ⟨0xffff08080808, 9333⟩ 0 fun _ => 0]).map check_ = some (.error (-1)) := by
  decide

end CAddrMan

end BitCrystal
