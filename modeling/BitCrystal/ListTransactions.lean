import BitCrystal.Base58Data
import BitCrystal.Data.Pages
import BitCrystal.JsonReader
import BitCrystal.WalletAmounts
import BitCrystal.WalletCache

namespace BitCrystal

open Data

/-! # The pages of listtransactions -/

/-! ## The entries -/

/-- An accounting entry with what listtransactions shows of it. -/
structure AccountingRecord extends CAccountingEntry where
  nTime : Int
  nOrderPos : Int
  strOtherAccount : String
  strComment : String
deriving DecidableEq

/-- The wallet with the order of its transactions and its accounting entries in the order of the cursor. -/
structure HistoryWallet extends TxWallet where
  nOrderPos : UInt256 → Int
  acentries : List AccountingRecord

/-- `pair<CWalletTx*, CAccountingEntry*>`, of which one is not null. -/
inductive TxPair where
  | tx (wtx : CWalletTx)
  | acentry (entry : AccountingRecord)

inductive ReceivedCategory where
  | orphan
  | immature
  | generate
  | receive
deriving DecidableEq

/-- An object of the result. That of a transaction ends with what WalletTxToJSON makes of the transaction. -/
inductive HistoryEntry where
  | send (account : String) (address : Bytes) (amount fee : Int) (wtx : CWalletTx)
  | received (account : String) (address : Bytes) (category : ReceivedCategory) (amount : Int) (wtx : CWalletTx)
  | move (account : String) (time amount : Int) (otheraccount comment : String)
deriving DecidableEq

def acentryToJSON (acentry : AccountingRecord) (strAccount : String) : List HistoryEntry :=
  let fAllAccounts := strAccount = "*"
  if fAllAccounts ∨ acentry.strAccount = strAccount then
    [.move acentry.strAccount acentry.nTime acentry.nCreditDebit acentry.strOtherAccount acentry.strComment]
  else []

section

variable [Hashing] (chain : MainChain)

def CWalletTx.receivedCategory (wtx : CWalletTx) : ReceivedCategory :=
  if wtx.isCoinBase then
    if wtx.getDepthInMainChain chain < 1 then .orphan
    else if 0 < wtx.getBlocksToMaturity chain then .immature
    else .generate
  else .receive

variable [ScriptDigests] (fTestNet : Bool)

/-- The entries that ListTransactions appends, with `fLong`. -/
def CWalletTx.listTransactions (wtx : CWalletTx) (w : TxWallet) (strAccount : String) (nMinDepth : Int) :
    Except Failure (List HistoryEntry) := do
  let amounts ← wtx.getAmounts w
  let fAllAccounts := strAccount = "*"
  let sent :=
    if (amounts.listSent ≠ [] ∨ amounts.nFee ≠ 0) ∧ (fAllAccounts ∨ strAccount = amounts.strSentAccount) then
      amounts.listSent.map fun s =>
        .send amounts.strSentAccount (CBitcoinAddress.ofDestination fTestNet s.1).toString (-s.2) (-amounts.nFee) wtx
    else []
  let received :=
    if 0 < amounts.listReceived.length ∧ nMinDepth ≤ wtx.getDepthInMainChain chain then
      (amounts.listReceived.filter fun r => fAllAccounts ∨ w.accountOf r.1 = strAccount).map fun r =>
        .received (w.accountOf r.1) (CBitcoinAddress.ofDestination fTestNet r.1).toString (wtx.receivedCategory chain)
          r.2 wtx
    else []
  return sent ++ received

/-- The entries of one turn of the loop. -/
def TxPair.entries (w : TxWallet) (strAccount : String) : TxPair → Except Failure (List HistoryEntry)
  | .tx wtx => wtx.listTransactions chain fTestNet w strAccount 0
  | .acentry entry => .ok (acentryToJSON entry strAccount)

end

namespace HistoryWallet

def listAccountCreditDebit (w : HistoryWallet) (strAccount : String) : List AccountingRecord :=
  if strAccount = "*" then w.acentries else w.acentries.filter fun entry => entry.strAccount = strAccount

/-- What OrderedTxItems inserts, in this order. -/
def txItems (w : HistoryWallet) (strAccount : String) : List (Int × TxPair) :=
  w.mapWallet.toList.map (fun entry => (w.nOrderPos entry.1, .tx entry.2)) ++
    (w.listAccountCreditDebit strAccount).map fun entry => (entry.nOrderPos, .acentry entry)

def orderedTxItems (w : HistoryWallet) (strAccount : String) : List (Int × TxPair) :=
  (w.txItems strAccount).foldl (insertByKey Prod.fst) []

def newestFirst (w : HistoryWallet) (strAccount : String) : List TxPair :=
  (w.orderedTxItems strAccount).reverse.map Prod.snd

end HistoryWallet

/-! ## The call -/

/-- What the program takes for `int` values outside the range: in the bound of the loop, in the sums after it and
in the sizes. -/
structure IntOverflow where
  bound : Int → Int
  sum : Int → Int
  size : Int → Int

namespace IntOverflow

variable {α β : Type}

/-- The loop over the items: `ret` until it has `bound` entries. -/
def collect (overflow : IntOverflow) (bound : Int) (entries : β → Except Failure (List α)) :
    List β → List α → Except Failure (List α)
  | [], ret => .ok ret
  | item :: items, ret => do
      let appended ← entries item
      let ret := ret ++ appended
      if bound ≤ intValue overflow.size ret.length then return ret else overflow.collect bound entries items ret

/-- What is left between the two iterators. -/
def eraseOutside (ret : List α) (first last : Int) : Except Failure (List α) :=
  if 0 ≤ first ∧ first ≤ last ∧ last ≤ ret.length then .ok ((ret.take last.toNat).drop first.toNat)
  else .error (.undefined "advance or erase outside of ret")

/-- The trimming at both ends. -/
def trim (overflow : IntOverflow) (nCount nFrom : Int) (ret : List α) : Except Failure (List α) :=
  let nSize := intValue overflow.size ret.length
  let nFrom := if nSize < nFrom then nSize else nFrom
  -- `ret.size() - nFrom` is computed in `size_t`
  let nCount := if nSize < intValue overflow.sum (nFrom + nCount) then
      intValue overflow.size ((ret.length - nFrom) % 2 ^ 64)
    else nCount
  eraseOutside ret nFrom (intValue overflow.sum (nFrom + nCount))

end IntOverflow

/-- The parameters of the call, which may be left out. -/
structure ListParams where
  account : Option String
  count : Option Int
  skip : Option Int

namespace ListParams

def strAccount (params : ListParams) : String := params.account.getD "*"
def nCount (params : ListParams) : Int := (params.count.map getInt).getD 10
def nFrom (params : ListParams) : Int := (params.skip.map getInt).getD 0

end ListParams

section

variable [Hashing] [ScriptDigests] (chain : MainChain) (fTestNet : Bool)

/-- A JSONRPCError is a thrown exception. -/
def listtransactions (overflow : IntOverflow) (w : HistoryWallet) (params : ListParams) :
    Except Failure (List HistoryEntry) := do
  if params.nCount < 0 then .error (.exception "Negative count")
  else if params.nFrom < 0 then .error (.exception "Negative from")
  else
    let bound := intValue overflow.bound (params.nCount + params.nFrom)
    let ret ← overflow.collect bound (TxPair.entries chain fTestNet w.toTxWallet params.strAccount)
      (w.newestFirst params.strAccount) []
    let ret ← overflow.trim params.nCount params.nFrom ret
    return ret.reverse

/-- The entries of all items, newest first. -/
def HistoryWallet.history (w : HistoryWallet) (strAccount : String) : Except Failure (List (List HistoryEntry)) :=
  (w.newestFirst strAccount).mapM (TxPair.entries chain fTestNet w.toTxWallet strAccount)

/-! ## The loop -/

namespace IntOverflow

section

omit [Hashing] [ScriptDigests]

variable {α β : Type} {overflow : IntOverflow} {bound : Int} {entries : β → Except Failure (List α)}

/-- The loop over the entries of the items. -/
def gather (overflow : IntOverflow) (bound : Int) : List (List α) → List α → List α
  | [], ret => ret
  | part :: parts, ret =>
      if bound ≤ intValue overflow.size (ret ++ part).length then ret ++ part
      else overflow.gather bound parts (ret ++ part)

theorem collect_eq {items : List β} {parts : List (List α)} (listed : items.mapM entries = .ok parts) (ret : List α) :
    overflow.collect bound entries items ret = .ok (overflow.gather bound parts ret) := by
  induction items generalizing parts ret with
  | nil =>
      cases listed
      rfl
  | cons item rest ih =>
      rw [List.mapM_cons] at listed
      obtain ⟨part, first, listed⟩ := bind_eq_ok.mp listed
      obtain ⟨more, later, listed⟩ := bind_eq_ok.mp listed
      cases listed
      rw [collect, first, ok_bind, gather]
      by_cases full : bound ≤ intValue overflow.size (ret ++ part).length
      · rw [if_pos full, if_pos full]
        rfl
      · rw [if_neg full, if_neg full]
        exact ih later _

theorem gather_prefix (overflow : IntOverflow) (bound : Int) (parts : List (List α)) (ret : List α) :
    ∃ read rest, parts = read ++ rest ∧ overflow.gather bound parts ret = ret ++ read.flatten ∧
      (rest = [] ∨ bound ≤ intValue overflow.size (ret ++ read.flatten).length) := by
  induction parts generalizing ret with
  | nil => exact ⟨[], [], rfl, (List.append_nil ret).symm, Or.inl rfl⟩
  | cons part parts ih =>
      rw [gather]
      by_cases full : bound ≤ intValue overflow.size (ret ++ part).length
      · rw [if_pos full]
        refine ⟨[part], parts, rfl, ?_, Or.inr ?_⟩
        · rw [List.flatten_singleton]
        · rw [List.flatten_singleton]
          exact full
      · obtain ⟨read, rest, split, gathered, stopped⟩ := ih (ret ++ part)
        rw [if_neg full, gathered]
        refine ⟨part :: read, rest, congrArg (part :: ·) split, ?_, ?_⟩
        · rw [List.flatten_cons, List.append_assoc]
        · rw [List.flatten_cons, ← List.append_assoc]
          exact stopped

/-- Where some of the items, of which there is one, have enough entries and the entries fit, the loop reads enough
and no more than fit. -/
theorem gather_fits (overflow : IntOverflow) {parts read rest : List (List α)} (ret : List α)
    (split : parts = read ++ rest) (enough : rest = [] ∨ (read ≠ [] ∧ bound ≤ (ret ++ read.flatten).length))
    (fits : ((ret ++ read.flatten).length : Int) < 2 ^ 31) :
    ∃ taken left, parts = taken ++ left ∧ overflow.gather bound parts ret = ret ++ taken.flatten ∧
      (left = [] ∨ bound ≤ (ret ++ taken.flatten).length) ∧ ((ret ++ taken.flatten).length : Int) < 2 ^ 31 := by
  induction parts generalizing ret read with
  | nil =>
      obtain ⟨rfl, rfl⟩ := List.append_eq_nil_iff.mp split.symm
      exact ⟨[], [], rfl, (List.append_nil ret).symm, Or.inl rfl, fits⟩
  | cons part parts ih =>
      cases read with
      | nil =>
          cases enough with
          | inl none =>
              rw [none] at split
              cases split
          | inr some => exact absurd rfl some.1
      | cons first read =>
          obtain ⟨rfl, tail⟩ := List.cons.inj split
          rw [List.flatten_cons, ← List.append_assoc] at enough fits
          have size : intValue overflow.size (ret ++ part).length = (ret ++ part).length := by
            apply intValue_of_range
            unfold int32Range
            rw [List.length_append] at fits
            omega
          rw [gather, size]
          by_cases full : bound ≤ (ret ++ part).length
          · rw [if_pos full]
            refine ⟨[part], parts, rfl, ?_, Or.inr ?_, ?_⟩
            · rw [List.flatten_singleton]
            · rw [List.flatten_singleton]
              exact full
            · rw [List.flatten_singleton]
              rw [List.length_append] at fits
              omega
          · rw [if_neg full]
            have later : rest = [] ∨ (read ≠ [] ∧ bound ≤ (ret ++ part ++ read.flatten).length) := by
              cases enough with
              | inl none => exact Or.inl none
              | inr some =>
                  refine Or.inr ⟨?_, some.2⟩
                  rintro rfl
                  rw [List.flatten_nil, List.append_nil] at some
                  exact full some.2
            obtain ⟨taken, left, whole, gathered, stopped, small⟩ := ih (ret ++ part) tail later fits
            refine ⟨part :: taken, left, congrArg (part :: ·) whole, ?_, ?_, ?_⟩
            · rw [gathered, List.flatten_cons, List.append_assoc]
            · rw [List.flatten_cons, ← List.append_assoc]
              exact stopped
            · rw [List.flatten_cons, ← List.append_assoc]
              exact small

/-- Where the entries do not fit as soon as there are enough, and a size that does not fit is taken for a negative
number, the loop reads all items. -/
theorem gather_all {parts : List (List α)} {ret : List α} (negative : ∀ value, overflow.size value = -1)
    (nonneg : 0 ≤ bound)
    (large : ∀ read rest, parts = read ++ rest → read ≠ [] → bound ≤ (ret ++ read.flatten).length →
      2 ^ 31 ≤ ((ret ++ read.flatten).length : Int)) :
    overflow.gather bound parts ret = ret ++ parts.flatten := by
  induction parts generalizing ret with
  | nil => exact (List.append_nil ret).symm
  | cons part parts ih =>
      have onward : ¬bound ≤ intValue overflow.size (ret ++ part).length := by
        intro full
        by_cases small : int32Range ((ret ++ part).length : Int)
        · rw [intValue_of_range small] at full
          have wide := large [part] parts rfl (List.cons_ne_nil _ _)
          rw [List.flatten_singleton] at wide
          exact absurd small.2 (Int.not_lt.mpr (wide full))
        · rw [intValue, if_neg small, negative] at full
          omega
      rw [gather, if_neg onward, List.flatten_cons, ← List.append_assoc]
      apply ih
      intro read rest split _ enough
      have wide := large (part :: read) rest (congrArg (part :: ·) split) (List.cons_ne_nil _ _)
      rw [List.flatten_cons, ← List.append_assoc] at wide
      exact wide enough

/-! ## The trimming -/

theorem eraseOutside_eq {ret : List α} {first last : Int} (nonneg : 0 ≤ first) (ordered : first ≤ last)
    (inside : last ≤ ret.length) :
    eraseOutside ret first last = .ok (page ret (last - first).toNat first.toNat) := by
  rw [eraseOutside, if_pos ⟨nonneg, ordered, inside⟩, page, List.drop_take,
    show last.toNat - first.toNat = (last - first).toNat by omega]

/-- A size in the range is taken for itself. -/
theorem size_of_fits {ret : List α} (fits : (ret.length : Int) < 2 ^ 31) :
    intValue overflow.size ret.length = ret.length := by
  apply intValue_of_range
  unfold int32Range
  omega

theorem start_eq_min (ret : List α) (nFrom : Int) :
    (if (ret.length : Int) < nFrom then (ret.length : Int) else nFrom) = min nFrom ret.length := by
  split <;> omega

theorem trim_page {ret : List α} {nCount nFrom : Int} (countNonneg : 0 ≤ nCount) (fromNonneg : 0 ≤ nFrom)
    (fits : (ret.length : Int) < 2 ^ 31) (room : min nFrom ret.length + nCount < 2 ^ 31) :
    overflow.trim nCount nFrom ret = .ok (page ret nCount.toNat nFrom.toNat) := by
  have size : intValue overflow.size ret.length = ret.length := size_of_fits fits
  have start := start_eq_min ret nFrom
  have sum : intValue overflow.sum (min nFrom ret.length + nCount) = min nFrom ret.length + nCount := by
    apply intValue_of_range
    unfold int32Range
    omega
  have spare : intValue overflow.size ((ret.length - min nFrom ret.length) % 2 ^ 64) =
      ret.length - min nFrom ret.length := by
    rw [Int.emod_eq_of_lt (by omega) (by omega)]
    apply intValue_of_range
    unfold int32Range
    omega
  unfold trim
  rw [size]
  dsimp only
  rw [start, sum, spare]
  by_cases short : (ret.length : Int) < min nFrom ret.length + nCount
  · rw [if_pos short]
    have whole : min nFrom ret.length + (ret.length - min nFrom ret.length) = (ret.length : Int) := by omega
    rw [whole, show intValue overflow.sum ret.length = ret.length from intValue_of_range ⟨by omega, fits⟩,
      eraseOutside_eq (by omega) (by omega) (by omega)]
    unfold page
    by_cases beyond : (ret.length : Int) ≤ nFrom
    · rw [List.drop_eq_nil_of_le (by omega), List.drop_eq_nil_of_le (by omega), List.take_nil, List.take_nil]
    · rw [show (min nFrom (ret.length : Int)).toNat = nFrom.toNat by omega]
      rw [List.take_of_length_le (by rw [List.length_drop]; omega),
        List.take_of_length_le (by rw [List.length_drop]; omega)]
  · rw [if_neg short, sum, eraseOutside_eq (by omega) (by omega) (by omega)]
    have count : min nFrom ret.length + nCount - min nFrom ret.length = nCount := by omega
    rw [count]
    by_cases beyond : (ret.length : Int) ≤ nFrom
    · rw [page_beyond (by omega), page_beyond (by omega)]
    · rw [show (min nFrom (ret.length : Int)).toNat = nFrom.toNat by omega]

theorem trim_large {ret : List α} {nCount nFrom : Int} (negative : ∀ value, overflow.size value = -1)
    (fromNonneg : 0 ≤ nFrom) (large : 2 ^ 31 ≤ (ret.length : Int)) (left : List α) :
    overflow.trim nCount nFrom ret ≠ .ok left := by
  have size : intValue overflow.size ret.length = -1 := by
    rw [intValue, if_neg fun small => absurd small.2 (Int.not_lt.mpr large), negative]
  unfold trim eraseOutside
  rw [size]
  dsimp only
  rw [if_pos (show (-1 : Int) < nFrom by omega), if_neg]
  · exact nofun
  · intro inside
    exact absurd inside.1 (by decide)

theorem trim_overflow {ret : List α} {nCount nFrom : Int} (negative : ∀ value, overflow.sum value = -1)
    (fits : (ret.length : Int) < 2 ^ 31)
    (wide : 2 ^ 31 ≤ min nFrom ret.length + nCount) (left : List α) :
    overflow.trim nCount nFrom ret ≠ .ok left := by
  have size : intValue overflow.size ret.length = ret.length := size_of_fits fits
  have start := start_eq_min ret nFrom
  have sum : intValue overflow.sum (min nFrom ret.length + nCount) = -1 := by
    rw [intValue, if_neg fun small => absurd small.2 (Int.not_lt.mpr wide), negative]
  unfold trim eraseOutside
  rw [size]
  dsimp only
  rw [start, sum, if_neg (show ¬(ret.length : Int) < -1 by omega), sum, if_neg]
  · exact nofun
  · intro inside
    omega

/-! ## What is served -/

/-- The newest items, of which there is one or none at all, have `bound` entries or are all, and their entries fit. -/
def Fits (parts : List (List α)) (bound : Int) : Prop :=
  ∃ read rest, parts = read ++ rest ∧ (rest = [] ∨ (read ≠ [] ∧ bound ≤ read.flatten.length)) ∧
    (read.flatten.length : Int) < 2 ^ 31

/-- The sum of the two parameters fits and so do the entries that are read for it; or all entries are skipped and
the sum of their number and the count fits. -/
def Served (parts : List (List α)) (nCount nFrom : Int) : Prop :=
  nCount + nFrom < 2 ^ 31 ∧ Fits parts (nCount + nFrom) ∨
    (parts.flatten.length ≤ nFrom ∧ parts.flatten.length + nCount < 2 ^ 31)

variable {parts : List (List α)} {nCount nFrom : Int}

theorem served_page (served : Served parts nCount nFrom) (countNonneg : 0 ≤ nCount) (fromNonneg : 0 ≤ nFrom) :
    overflow.trim nCount nFrom (overflow.gather (intValue overflow.bound (nCount + nFrom)) parts []) =
      .ok (page parts.flatten nCount.toNat nFrom.toNat) := by
  cases served with
  | inl enough =>
      obtain ⟨range, read, rest, split, stops, fits⟩ := enough
      rw [intValue_of_range ⟨by omega, range⟩]
      obtain ⟨taken, left, whole, gathered, stopped, small⟩ := gather_fits overflow [] split stops fits
      rw [List.nil_append] at gathered stopped small
      rw [gathered, trim_page countNonneg fromNonneg small (by omega), whole, List.flatten_append, page_append]
      cases stopped with
      | inl all => exact Or.inl (by rw [all, List.flatten_nil])
      | inr some => exact Or.inr (by omega)
  | inr skipped =>
      obtain ⟨read, rest, split, gathered, -⟩ :=
        gather_prefix overflow (intValue overflow.bound (nCount + nFrom)) parts []
      have size : read.flatten.length ≤ parts.flatten.length := by
        rw [split, List.flatten_append, List.length_append]
        exact Nat.le_add_right _ _
      rw [gathered, List.nil_append, trim_page countNonneg fromNonneg (by omega) (by omega), page_beyond (by omega),
        page_beyond (by omega)]

def adverse : IntOverflow := ⟨fun _ => 2 ^ 31 - 1, fun _ => -1, fun _ => -1⟩

theorem adverse_fails (unserved : ¬Served parts nCount nFrom) (countNonneg : 0 ≤ nCount) (fromNonneg : 0 ≤ nFrom)
    (fromFits : nFrom < 2 ^ 31) (left : List α) :
    adverse.trim nCount nFrom (adverse.gather (intValue adverse.bound (nCount + nFrom)) parts []) ≠ .ok left := by
  by_cases range : nCount + nFrom < 2 ^ 31
  · have misfit : ¬Fits parts (nCount + nFrom) := fun fits => unserved (Or.inl ⟨range, fits⟩)
    have all : adverse.gather (nCount + nFrom) parts [] = parts.flatten := by
      apply gather_all (fun _ => rfl) (by omega)
      intro read rest split some enough
      rw [List.nil_append] at enough ⊢
      by_contra small
      exact misfit ⟨read, rest, split, Or.inr ⟨some, enough⟩, by omega⟩
    have large : 2 ^ 31 ≤ (parts.flatten.length : Int) := by
      by_contra small
      exact misfit ⟨parts, [], (List.append_nil parts).symm, Or.inl rfl, by omega⟩
    rw [intValue_of_range ⟨by omega, range⟩, all]
    exact trim_large (fun _ => rfl) fromNonneg large left
  · have bound : intValue adverse.bound (nCount + nFrom) = 2 ^ 31 - 1 := if_neg fun small => range small.2
    rw [bound]
    obtain ⟨read, rest, split, gathered, stopped⟩ := gather_prefix adverse (2 ^ 31 - 1) parts []
    rw [List.nil_append] at gathered stopped
    rw [gathered]
    by_cases small : (read.flatten.length : Int) < 2 ^ 31
    · apply trim_overflow (fun _ => rfl) small
      cases stopped with
      | inl all =>
          rw [all, List.append_nil] at split
          by_contra narrow
          apply unserved
          refine Or.inr ?_
          rw [split]
          omega
      | inr full =>
          rw [intValue_of_range ⟨by omega, small⟩] at full
          omega
    · exact trim_large (fun _ => rfl) fromNonneg (Int.not_lt.mp small) left

end

end IntOverflow

/-! ## The pages -/

open IntOverflow

omit [Hashing] [ScriptDigests] in
theorem ListParams.nFrom_lt (params : ListParams) : params.nFrom < 2 ^ 31 := by
  unfold ListParams.nFrom
  cases params.skip with
  | none => decide
  | some value => exact (getInt_range value).2

omit [Hashing] [ScriptDigests] in
theorem ListParams.given (account : Option String) (count skip : Int) :
    nCount ⟨account, some count, some skip⟩ = getInt count ∧ nFrom ⟨account, some count, some skip⟩ = getInt skip :=
  ⟨rfl, rfl⟩

variable {chain fTestNet} {w : HistoryWallet} {params : ListParams} {parts : List (List HistoryEntry)}

theorem listtransactions_eq (overflow : IntOverflow) (listed : w.history chain fTestNet params.strAccount = .ok parts)
    (countNonneg : 0 ≤ params.nCount) (fromNonneg : 0 ≤ params.nFrom) :
    listtransactions chain fTestNet overflow w params = do
      let ret ← overflow.trim params.nCount params.nFrom
        (overflow.gather (intValue overflow.bound (params.nCount + params.nFrom)) parts [])
      return ret.reverse := by
  unfold listtransactions
  rw [if_neg (Int.not_lt.mpr countNonneg), if_neg (Int.not_lt.mpr fromNonneg)]
  dsimp only
  rw [collect_eq listed, ok_bind]

def ListParams.asked (params : ListParams) : Int × Int := (params.count.getD 10, params.skip.getD 0)

/-- The answer that a call should have: its page of the entries, oldest first. -/
def ListParams.expected (params : ListParams) (entries : List HistoryEntry) : List HistoryEntry :=
  (page entries params.asked.1.toNat params.asked.2.toNat).reverse

/-- A call answers with its page exactly where the parameters, as `int` values, are not negative, ask for the same
entries and are served. -/
theorem listtransactions_iff (params : ListParams) (listed : w.history chain fTestNet params.strAccount = .ok parts) :
    (∀ overflow, listtransactions chain fTestNet overflow w params = .ok (params.expected parts.flatten)) ↔
      (0 ≤ params.nCount ∧ 0 ≤ params.nFrom) ∧ Served parts params.nCount params.nFrom ∧
        page parts.flatten params.nCount.toNat params.nFrom.toNat =
          page parts.flatten params.asked.1.toNat params.asked.2.toNat := by
  apply Iff.intro
  · intro answers
    have countNonneg : 0 ≤ params.nCount := by
      by_contra negative
      have refused := answers adverse
      rw [listtransactions, if_pos (Int.not_le.mp negative)] at refused
      cases refused
    have fromNonneg : 0 ≤ params.nFrom := by
      by_contra negative
      have refused := answers adverse
      rw [listtransactions, if_neg (Int.not_lt.mpr countNonneg), if_pos (Int.not_le.mp negative)] at refused
      cases refused
    have answer := answers adverse
    rw [listtransactions_eq adverse listed countNonneg fromNonneg] at answer
    obtain ⟨left, trimmed, answer⟩ := bind_eq_ok.mp answer
    have served : Served parts params.nCount params.nFrom := by
      by_contra unserved
      exact adverse_fails unserved countNonneg fromNonneg params.nFrom_lt left trimmed
    rw [served_page served countNonneg fromNonneg] at trimmed
    cases trimmed
    exact ⟨⟨countNonneg, fromNonneg⟩, served, List.reverse_injective (Except.ok.inj answer)⟩
  · intro ⟨nonneg, served, same⟩ overflow
    rw [listtransactions_eq overflow listed nonneg.1 nonneg.2, served_page served nonneg.1 nonneg.2, ok_bind, same]
    rfl

theorem consecutive_pages (account : Option String) {count number : Nat} (fits : number * count < 2 ^ 31)
    (listed : w.history chain fTestNet (account.getD "*") = .ok parts) (small : (parts.flatten.length : Int) < 2 ^ 31)
    (overflow : IntOverflow) : ∃ pages, (List.range number).mapM (fun turn =>
      listtransactions chain fTestNet overflow w ⟨account, some (count : Int), some ((turn * count : Nat) : Int)⟩) =
        .ok pages ∧ pages.flatMap List.reverse = parts.flatten.take (number * count) := by
  have each : ∀ turn ∈ List.range number,
      listtransactions chain fTestNet overflow w ⟨account, some (count : Int), some ((turn * count : Nat) : Int)⟩ =
        .ok (page parts.flatten count (turn * count)).reverse := by
    intro turn member
    have before : turn + 1 ≤ number := List.mem_range.mp member
    have within : turn * count + count ≤ number * count := by
      rw [← Nat.succ_mul]
      exact Nat.mul_le_mul_right count before
    have nCount : getInt (count : Int) = count := getInt_of_range (by omega) (by omega)
    have nFrom : getInt ((turn * count : Nat) : Int) = (turn * count : Nat) := getInt_of_range (by omega) (by omega)
    have given := ListParams.given account (count : Int) ((turn * count : Nat) : Int)
    have served : Served parts (count : Int) ((turn * count : Nat) : Int) :=
      Or.inl ⟨by omega, parts, [], (List.append_nil parts).symm, Or.inl rfl, small⟩
    apply (listtransactions_iff ⟨account, some (count : Int), some ((turn * count : Nat) : Int)⟩ listed).mpr
    rw [given.1, given.2, nCount, nFrom]
    exact ⟨⟨by omega, by omega⟩, served, rfl⟩
  refine ⟨(List.range number).map fun turn => (page parts.flatten count (turn * count)).reverse, ?_, ?_⟩
  · rw [mapM_congr each]
    exact List.mapM_pure
  rw [List.flatMap_map]
  simp only [List.reverse_reverse]
  exact flatMap_page parts.flatten count number

omit [Hashing] [ScriptDigests] in
theorem orderedTxItems_spec (w : HistoryWallet) (strAccount : String) :
    (w.orderedTxItems strAccount).Perm (w.txItems strAccount) ∧ Ascending Prod.fst (w.orderedTxItems strAccount) :=
  ⟨foldl_insertByKey_perm Prod.fst _ [], foldl_insertByKey_ascending Prod.fst _ List.Pairwise.nil⟩

/-- Of the account's entries, those of the items from the newest to the oldest, each call gives its page exactly
where it is served, and consecutive pages make up the newest entries. -/
theorem listtransactions_pages {account : Option String}
    (listed : w.history chain fTestNet (account.getD "*") = .ok parts) :
    ((w.orderedTxItems (account.getD "*")).Perm (w.txItems (account.getD "*")) ∧
      Ascending Prod.fst (w.orderedTxItems (account.getD "*"))) ∧
    (∀ count skip : Option Int, let params : ListParams := ⟨account, count, skip⟩
      (∀ overflow, listtransactions chain fTestNet overflow w params = .ok (params.expected parts.flatten)) ↔
        (0 ≤ params.nCount ∧ 0 ≤ params.nFrom) ∧ Served parts params.nCount params.nFrom ∧
          page parts.flatten params.nCount.toNat params.nFrom.toNat =
            page parts.flatten params.asked.1.toNat params.asked.2.toNat) ∧
    ∀ count number : Nat, number * count < 2 ^ 31 → (parts.flatten.length : Int) < 2 ^ 31 → ∀ overflow, ∃ pages,
      (List.range number).mapM (fun turn => listtransactions chain fTestNet overflow w
        ⟨account, some (count : Int), some ((turn * count : Nat) : Int)⟩) = .ok pages ∧
          pages.flatMap List.reverse = parts.flatten.take (number * count) := by
  refine ⟨orderedTxItems_spec w _, ?_, ?_⟩
  · intro count skip
    exact listtransactions_iff ⟨account, count, skip⟩ listed
  · intro count number fits small overflow
    exact consecutive_pages account fits listed small overflow

end

namespace Sample

/-- A wallet without transactions and with one move between two accounts. -/
def movesWallet : HistoryWallet where
  toTxWallet := walletWith fun _ => false
  nOrderPos := fun _ => 0
  acentries := [⟨⟨"", -5⟩, 7, 1, "savings", ""⟩, ⟨⟨"savings", 5⟩, 7, 2, "", ""⟩]

def moves : List (List HistoryEntry) := [[.move "savings" 7 5 "" ""], [.move "" 7 (-5) "savings" ""]]

/-- Two's complement, as most machines compute. -/
def wrapping : IntOverflow := ⟨getInt, getInt, getInt⟩

theorem moves_listed : movesWallet.history oneBlock false "*" = .ok moves := by
  decide +kernel

end Sample

open Sample in
theorem listtransactions_pages_moves :
    listtransactions oneBlock false wrapping movesWallet ⟨none, some 1, some 1⟩ =
      .ok [.move "" 7 (-5) "savings" ""] := by
  have served : IntOverflow.Served moves 1 1 := Or.inl ⟨by decide, moves, [], rfl, Or.inl rfl, by decide⟩
  have listed : movesWallet.history oneBlock false ((none : Option String).getD "*") = .ok moves := moves_listed
  have pages := (listtransactions_pages listed).2.1 (some 1) (some 1)
  exact pages.mpr ⟨⟨by decide, by decide⟩, served, rfl⟩ wrapping

open Sample in
/-- Skipping one entry and asking for as many as an `int` can count leads outside of the list. -/
theorem listtransactions_outside :
    movesWallet.history oneBlock false "*" = .ok moves ∧
      listtransactions oneBlock false wrapping movesWallet ⟨none, some (2 ^ 31 - 1), some 1⟩ ≠
        .ok (ListParams.expected ⟨none, some (2 ^ 31 - 1), some 1⟩ moves.flatten) :=
  ⟨moves_listed, by decide +kernel⟩

end BitCrystal
