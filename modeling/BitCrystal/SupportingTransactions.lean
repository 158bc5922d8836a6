import BitCrystal.MempoolInputs
import BitCrystal.WalletTx

namespace BitCrystal

open Data

/-! # The supporting transactions of a wallet transaction

AcceptWalletTransaction offers transactions of vtxPrev to the memory pool, and then the
wallet transaction itself. -/

/-- What AcceptWalletTransaction leaves behind, with the supporting transactions it has offered. -/
structure WalletOffer where
  pool : CTxMemPool
  offered : List CMerkleTx
  accepted : Bool

section

variable [ScriptMachine] [Hashing]

namespace CTxMemPool

/-- `CMerkleTx::AcceptToMemoryPool` -/
def offer (context : AcceptContext) (fCheckInputs : Bool) (pool : CTxMemPool) (tx : CMerkleTx) :
    Except Failure (CTxMemPool × Bool) :=
  match pool.acceptToMemoryPool context tx.toCTransaction fCheckInputs false with
  | .ok pool => .ok (pool, true)
  | .error reason => if reason.returnsFalse then .ok (pool, false) else .error reason

/-- A turn of the loop over vtxPrev; the answer of AcceptToMemoryPool is not used. -/
def offerPrevious (context : AcceptContext) (fCheckInputs : Bool) (s : CTxMemPool × List CMerkleTx) (tx : CMerkleTx) :
    Except Failure (CTxMemPool × List CMerkleTx) :=
  if !tx.isCoinBase then
    if !s.1.mapTx.contains tx.getHash && context.pcoinsTip.haveCoins tx.getHash then do
      let (pool, _) ← s.1.offer context fCheckInputs tx
      return (pool, s.2 ++ [tx])
    else .ok s
  else .ok s

def acceptWalletTransaction (context : AcceptContext) (fCheckInputs : Bool) (pool : CTxMemPool) (wtx : CWalletTx) :
    Except Failure WalletOffer := do
  let (pool, offered) ← wtx.vtxPrev.foldlM (offerPrevious context fCheckInputs) (pool, [])
  let (pool, accepted) ← pool.offer context fCheckInputs wtx.toCMerkleTx
  return ⟨pool, offered, accepted⟩

/-! ## What the comment promises -/

/-- Coinbases, confirmed transactions and those of the pool are not offered; the others are accepted, one after the
other. -/
def Supported (context : AcceptContext) (fCheckInputs : Bool) : List CMerkleTx → CTxMemPool → CTxMemPool → Prop
  | [], pool, next => next = pool
  | tx :: rest, pool, next =>
      if tx.isCoinBase || context.pcoinsTip.haveCoins tx.getHash || pool.mapTx.contains tx.getHash then
        Supported context fCheckInputs rest pool next
      else ∃ between, pool.acceptToMemoryPool context tx.toCTransaction fCheckInputs false = .ok between ∧
        Supported context fCheckInputs rest between next

/-- A chain and a pool in which the supporting transactions and then the wallet transaction would be accepted. -/
def Submittable (context : AcceptContext) (fCheckInputs : Bool) (pool : CTxMemPool) (wtx : CWalletTx) : Prop :=
  ∃ between next, Supported context fCheckInputs wtx.vtxPrev pool between ∧
    between.acceptToMemoryPool context wtx.toCTransaction fCheckInputs false = .ok next

/-- The wallet transaction and its unconfirmed supporting transactions are in the pool, and no confirmed one was
offered. -/
structure Submits (context : AcceptContext) (fCheckInputs : Bool) (pool : CTxMemPool) (wtx : CWalletTx)
    (result : WalletOffer) : Prop where
  returns : pool.acceptWalletTransaction context fCheckInputs wtx = .ok result
  accepted : result.accepted = true
  supporting : ∀ tx ∈ wtx.vtxPrev, tx.isCoinBase = false → context.pcoinsTip.haveCoins tx.getHash = false →
    result.pool.mapTx.contains tx.getHash = true
  own : result.pool.mapTx.contains wtx.getHash = true
  confirmed : ∀ tx ∈ result.offered, context.pcoinsTip.haveCoins tx.getHash = false

variable {context : AcceptContext} {fCheckInputs : Bool} {pool next between : CTxMemPool} {wtx : CWalletTx}

theorem acceptToMemoryPool_eq_ok {tx : CTransaction} :
    pool.acceptToMemoryPool context tx fCheckInputs false = .ok next ↔
      pool.accept context tx fCheckInputs false = .ok next := by
  rw [acceptToMemoryPool]
  split
  case h_1 what failed => simp [failed]
  case h_2 => rfl

omit [ScriptMachine] [Hashing] in
theorem contains_of_extends {hash : UInt256} (extends_ : pool.Extends next) (inPool : pool.mapTx.contains hash = true) :
    next.mapTx.contains hash = true := by
  obtain ⟨tx, stored⟩ := contains_iff.mp inPool
  exact contains_iff.mpr ⟨tx, extends_ hash tx stored⟩

theorem Accepted.contains {tx : CTransaction} (accepted : Accepted context pool tx fCheckInputs false next) :
    next.mapTx.contains tx.getHash = true := by
  rw [accepted.next_eq, contains_iff]
  exact ⟨tx, by rw [addUnchecked_mapTx, if_pos rfl]⟩

/-! ## The loop over vtxPrev -/

/-- Nothing to do for a transaction that is not confirmed, or confirmed and in the pool. -/
def Passed (context : AcceptContext) (pool : CTxMemPool) (tx : CMerkleTx) : Prop :=
  tx.isCoinBase = false → context.pcoinsTip.haveCoins tx.getHash = true → pool.mapTx.contains tx.getHash = true

theorem offerPrevious_cases {s t : CTxMemPool × List CMerkleTx} {tx : CMerkleTx}
    (run : offerPrevious context fCheckInputs s tx = .ok t) :
    (t = s ∧ Passed context s.1 tx) ∨ (t.2 = s.2 ++ [tx] ∧ context.pcoinsTip.haveCoins tx.getHash = true) := by
  unfold offerPrevious at run
  split at run
  case isFalse coinbase =>
    cases run
    refine .inl ⟨rfl, fun loose => ?_⟩
    rw [loose] at coinbase
    exact absurd rfl coinbase
  case isTrue =>
    split at run
    case isTrue offered =>
      obtain ⟨_, _, rest⟩ := bind_eq_ok.mp run
      cases rest
      exact .inr ⟨rfl, (Bool.and_eq_true_iff.mp offered).2⟩
    case isFalse skipped =>
      cases run
      refine .inl ⟨rfl, fun _ confirmed => ?_⟩
      rw [confirmed, Bool.and_true] at skipped
      simpa using skipped

theorem offerPrevious_passed {s : CTxMemPool × List CMerkleTx} {tx : CMerkleTx} (passed : Passed context s.1 tx) :
    offerPrevious context fCheckInputs s tx = .ok s := by
  unfold offerPrevious
  split
  case isTrue loose =>
    rw [if_neg]
    intro offered
    obtain ⟨absent, confirmed⟩ := Bool.and_eq_true_iff.mp offered
    rw [passed (by simpa using loose) confirmed] at absent
    cases absent
  case isFalse => rfl

/-- The loop only offers confirmed transactions; when it offers none it leaves the pool as it is. -/
theorem foldlM_offerPrevious {vtxPrev : List CMerkleTx} {s t : CTxMemPool × List CMerkleTx}
    (run : vtxPrev.foldlM (offerPrevious context fCheckInputs) s = .ok t) :
    ∃ more, t.2 = s.2 ++ more ∧ (∀ tx ∈ more, context.pcoinsTip.haveCoins tx.getHash = true) ∧
      (more = [] → t = s ∧ ∀ tx ∈ vtxPrev, Passed context s.1 tx) := by
  induction vtxPrev generalizing s with
  | nil =>
      cases run
      exact ⟨[], (List.append_nil _).symm, by simp, fun _ => ⟨rfl, by simp⟩⟩
  | cons tx vtxPrev ih =>
      rw [List.foldlM_cons, bind_eq_ok] at run
      obtain ⟨middle, first, rest⟩ := run
      obtain ⟨more, later, confirmed, quiet⟩ := ih rest
      rcases offerPrevious_cases first with ⟨rfl, passed⟩ | ⟨offered, ofTx⟩
      · refine ⟨more, later, confirmed, fun none => ?_⟩
        obtain ⟨same, each⟩ := quiet none
        exact ⟨same, List.forall_mem_cons.mpr ⟨passed, each⟩⟩
      · refine ⟨tx :: more, ?_, List.forall_mem_cons.mpr ⟨ofTx, confirmed⟩, fun none => by cases none⟩
        rw [later, offered, List.append_assoc, List.singleton_append]

theorem foldlM_offerPrevious_passed {vtxPrev : List CMerkleTx} {s : CTxMemPool × List CMerkleTx}
    (passed : ∀ tx ∈ vtxPrev, Passed context s.1 tx) :
    vtxPrev.foldlM (offerPrevious context fCheckInputs) s = .ok s := by
  induction vtxPrev with
  | nil => rfl
  | cons tx vtxPrev ih =>
      obtain ⟨first, rest⟩ := List.forall_mem_cons.mp passed
      rw [List.foldlM_cons, offerPrevious_passed first, ok_bind, ih rest]

/-! ## Submitting -/

theorem Supported.kept {vtxPrev : List CMerkleTx} (supported : Supported context fCheckInputs vtxPrev pool next) :
    pool.Extends next ∧ ∀ tx ∈ vtxPrev, tx.isCoinBase = false → context.pcoinsTip.haveCoins tx.getHash = false →
      next.mapTx.contains tx.getHash = true := by
  induction vtxPrev generalizing pool with
  | nil =>
      obtain rfl : next = pool := supported
      exact ⟨fun _ _ stored => stored, by simp⟩
  | cons tx vtxPrev ih =>
      rw [Supported] at supported
      split at supported
      case isTrue skipped =>
        obtain ⟨extends_, rest⟩ := ih supported
        refine ⟨extends_, List.forall_mem_cons.mpr ⟨fun loose unconfirmed => ?_, rest⟩⟩
        rw [loose, unconfirmed, Bool.false_or, Bool.false_or] at skipped
        exact contains_of_extends extends_ skipped
      case isFalse =>
        obtain ⟨between, run, later⟩ := supported
        have accepted := Accepted.of_acceptToMemoryPool run
        obtain ⟨extends_, rest⟩ := ih later
        exact ⟨accepted.extends.trans extends_,
          List.forall_mem_cons.mpr ⟨fun _ _ => contains_of_extends extends_ accepted.contains, rest⟩⟩

theorem Supported.eq_of_contains {vtxPrev : List CMerkleTx}
    (supported : Supported context fCheckInputs vtxPrev pool next)
    (all : ∀ tx ∈ vtxPrev, tx.isCoinBase = false → pool.mapTx.contains tx.getHash = true) : next = pool := by
  induction vtxPrev with
  | nil => exact supported
  | cons tx vtxPrev ih =>
      obtain ⟨first, rest⟩ := List.forall_mem_cons.mp all
      rw [Supported, if_pos] at supported
      · exact ih supported rest
      · cases coinbase : tx.isCoinBase with
        | true => rfl
        | false => rw [first coinbase, Bool.or_true]

/-- Wherever the transactions would be accepted in the promised order, AcceptWalletTransaction submits them exactly if
the supporting ones are in the pool already. -/
theorem submits_iff (context : AcceptContext) (fCheckInputs : Bool) (pool : CTxMemPool) (wtx : CWalletTx)
    (submittable : Submittable context fCheckInputs pool wtx) :
    (∃ result, Submits context fCheckInputs pool wtx result) ↔
      ∀ tx ∈ wtx.vtxPrev, tx.isCoinBase = false → pool.mapTx.contains tx.getHash = true := by
  obtain ⟨between, next, supported, run⟩ := submittable
  have accepted := Accepted.of_acceptToMemoryPool run
  constructor
  · intro ⟨result, submits⟩ tx member loose
    have returns := submits.returns
    rw [acceptWalletTransaction, bind_eq_ok] at returns
    obtain ⟨⟨left, offered⟩, loop, rest⟩ := returns
    obtain ⟨⟨last, answer⟩, final, same⟩ := bind_eq_ok.mp rest
    cases same
    obtain ⟨more, offers, confirmed, quiet⟩ := foldlM_offerPrevious loop
    -- what is offered is confirmed, so nothing is offered
    have none : more = [] := by
      refine List.eq_nil_iff_forall_not_mem.mpr fun other inMore => ?_
      have unconfirmed := submits.confirmed other (by rw [show offered = more from offers]; exact inMore)
      rw [confirmed other inMore] at unconfirmed
      cases unconfirmed
    obtain ⟨unchanged, passed⟩ := quiet none
    cases unchanged
    cases haveCoins : context.pcoinsTip.haveCoins tx.getHash with
    | true => exact passed tx member loose haveCoins
    | false =>
        -- the wallet transaction alone may be new in the pool
        have other : tx.getHash ≠ wtx.getHash := by
          intro same
          have inBetween := (supported.kept).2 tx member loose haveCoins
          rw [same] at inBetween
          obtain ⟨stored, found⟩ := contains_iff.mp inBetween
          rw [accepted.fresh] at found
          cases found
        have inLast := submits.supporting tx member loose haveCoins
        unfold offer at final
        split at final
        case h_1 added entered =>
          cases final
          obtain ⟨stored, found⟩ := contains_iff.mp inLast
          rw [(Accepted.of_acceptToMemoryPool entered).next_eq, addUnchecked_mapTx, if_neg other.symm] at found
          exact contains_iff.mpr ⟨stored, found⟩
        case h_2 reason refused =>
          split at final
          · cases final
            exact inLast
          · cases final
  · intro all
    obtain rfl := supported.eq_of_contains all
    have loop : wtx.vtxPrev.foldlM (offerPrevious context fCheckInputs) (between, []) = .ok (between, []) :=
      foldlM_offerPrevious_passed fun tx member loose _ => all tx member loose
    have final : between.offer context fCheckInputs wtx.toCMerkleTx = .ok (next, true) := by
      rw [offer, run]
    refine ⟨⟨next, [], true⟩, ?_, rfl, ?_, accepted.contains, by simp⟩
    · rw [acceptWalletTransaction, loop, ok_bind]
      dsimp only
      rw [final]
      rfl
    · intro tx member loose _
      exact contains_of_extends accepted.extends (all tx member loose)

end CTxMemPool

end

namespace CTxMemPool

open Sample

/-- A payment and a transaction that spends it, both not yet confirmed. -/
def supportedForward : CWalletTx :=
  { CWalletTx.ofTransaction forward with vtxPrev := [.ofTransaction payment] }

theorem forward_follows : ∃ pool next, empty.accept context payment true false = .ok pool ∧
    pool.accept context forward true false = .ok next := by
  have both : ((empty.accept context payment true false).bind fun pool =>
      pool.accept context forward true false).isOk = true := by decide +kernel
  obtain ⟨next, run⟩ := ok_of_isOk both
  obtain ⟨pool, first, second⟩ := bind_eq_ok.mp (show (empty.accept context payment true false >>= fun pool =>
    pool.accept context forward true false) = .ok next from run)
  exact ⟨pool, next, first, second⟩

theorem submits_sample : ∃ pool, empty.accept context payment true false = .ok pool ∧
    ∃ result, Submits context true pool supportedForward result := by
  obtain ⟨pool, next, first, second⟩ := forward_follows
  have inPool := (Accepted.of_accept first).contains
  refine ⟨pool, first, (submits_iff context true pool supportedForward ⟨pool, next, ?_, ?_⟩).mpr ?_⟩
  · rw [supportedForward, Supported, if_pos]
    · rfl
    · rw [show (CMerkleTx.ofTransaction payment).toCTransaction = payment from rfl, inPool, Bool.or_true]
  · exact acceptToMemoryPool_eq_ok.mpr second
  · intro tx member _
    obtain rfl := List.mem_singleton.mp member
    exact inPool

/-- The payment would be accepted, and then the transaction that spends it; but the payment is not offered. -/
theorem supporting_never_offered : Submittable context true empty supportedForward ∧
    ¬ ∃ result, Submits context true empty supportedForward result := by
  constructor
  · obtain ⟨pool, next, first, second⟩ := forward_follows
    have offered : (payment.isCoinBase || context.pcoinsTip.haveCoins payment.getHash ||
        empty.mapTx.contains payment.getHash) = false := by decide +kernel
    refine ⟨pool, next, ?_, acceptToMemoryPool_eq_ok.mpr second⟩
    rw [supportedForward, Supported, if_neg]
    · exact ⟨pool, acceptToMemoryPool_eq_ok.mpr first, rfl⟩
    · rw [show (CMerkleTx.ofTransaction payment).toCTransaction = payment from rfl, offered]
      exact Bool.false_ne_true
  · intro ⟨result, submits⟩
    have refused : (empty.acceptWalletTransaction context true supportedForward).map WalletOffer.accepted = .ok false := by
      decide +kernel
    rw [submits.returns] at refused
    have accepted := submits.accepted
    cases refused.symm.trans (congrArg Except.ok accepted)

end CTxMemPool

end BitCrystal
