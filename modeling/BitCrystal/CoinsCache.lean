import BitCrystal.CoinsRoundTrip
import BitCrystal.Data.Batch

namespace BitCrystal

open Data

/-! # The stack of coins caches over a database -/

abbrev CoinsMap := Std.ExtTreeMap UInt256 CCoins

/-- What a CCoinsViewCache uses of the view it is built on. `batchWrite` is a
write that succeeds; one that fails leaves the view as it is. -/
class BackingView (View : Type) where
  getCoins : View → UInt256 → Option CCoins
  getBestBlock : View → Option UInt256
  batchWrite : View → CoinsMap → Option UInt256 → View

structure CCoinsViewCache where
  cacheCoins : CoinsMap
  pindexTip : Option UInt256

/-- Caches, the uppermost first, over a base view. -/
structure CoinsStack (View : Type) where
  caches : List CCoinsViewCache
  base : View

/-- A call of a cache. `written` says whether a write to the base view that the
call makes succeeds. -/
inductive CoinsCall where
  | getCoins (txid : UInt256)
  | haveCoins (txid : UInt256)
  | setCoins (txid : UInt256) (coins : CCoins)
  | getBestBlock
  | setBestBlock (pindex : Option UInt256)
  | batchWrite (mapCoins : CoinsMap) (pindex : Option UInt256)
  | flush (written : Bool)

inductive CoinsResult where
  | coins (found : Option CCoins)
  | have (present : Bool)
  | best (pindex : Option UInt256)
  | done (fOk : Bool)
deriving DecidableEq

namespace CCoinsViewCache

variable {View : Type} [BackingView View]

def remember (cache : CCoinsViewCache) (txid : UInt256) (coins : CCoins) : CCoinsViewCache :=
  { cache with cacheCoins := cache.cacheCoins.insert txid coins }

/-- GetCoins, and FetchCoins behind HaveCoins: what the view below has is cached. -/
def getCoins (base : View) (txid : UInt256) : List CCoinsViewCache → Option CCoins × List CCoinsViewCache
  | [] => (BackingView.getCoins base txid, [])
  | cache :: below =>
      match cache.cacheCoins[txid]? with
      | some coins => (some coins, cache :: below)
      | none =>
          match getCoins base txid below with
          | (some coins, below) => (some coins, cache.remember txid coins :: below)
          | (none, below) => (none, cache :: below)

/-- GetBestBlock; a null pindexTip has not been set yet. -/
def getBestBlock (base : View) : List CCoinsViewCache → Option UInt256 × List CCoinsViewCache
  | [] => (BackingView.getBestBlock base, [])
  | cache :: below =>
      match cache.pindexTip with
      | some pindex => (some pindex, cache :: below)
      | none =>
          let (pindexTip, below) := getBestBlock base below
          (pindexTip, { cache with pindexTip } :: below)

end CCoinsViewCache

namespace CoinsStack

variable {View : Type} [BackingView View]

/-- BatchWrite of the uppermost view. -/
def batchWrite (stack : CoinsStack View) (mapCoins : CoinsMap) (pindex : Option UInt256) (written : Bool) :
    Option (CoinsStack View) :=
  match stack.caches with
  | [] => if written then some ⟨[], BackingView.batchWrite stack.base mapCoins pindex⟩ else none
  | cache :: below => some ⟨⟨applyBatch some mapCoins cache.cacheCoins, pindex⟩ :: below, stack.base⟩

/-- Flush of a cache on a stack. -/
def flush (cache : CCoinsViewCache) (lower : CoinsStack View) (written : Bool) : CoinsResult × CoinsStack View :=
  match lower.batchWrite cache.cacheCoins cache.pindexTip written with
  | some lower => (.done true, ⟨{ cache with cacheCoins := ∅ } :: lower.caches, lower.base⟩)
  | none => (.done false, ⟨cache :: lower.caches, lower.base⟩)

def call (cache : CCoinsViewCache) (lower : CoinsStack View) : CoinsCall → CoinsResult × CoinsStack View
  | .getCoins txid =>
      let (found, caches) := CCoinsViewCache.getCoins lower.base txid (cache :: lower.caches)
      (.coins found, ⟨caches, lower.base⟩)
  | .haveCoins txid =>
      let (found, caches) := CCoinsViewCache.getCoins lower.base txid (cache :: lower.caches)
      (.have found.isSome, ⟨caches, lower.base⟩)
  | .setCoins txid coins => (.done true, ⟨cache.remember txid coins :: lower.caches, lower.base⟩)
  | .getBestBlock =>
      let (pindex, caches) := CCoinsViewCache.getBestBlock lower.base (cache :: lower.caches)
      (.best pindex, ⟨caches, lower.base⟩)
  | .setBestBlock pindexTip => (.done true, ⟨{ cache with pindexTip } :: lower.caches, lower.base⟩)
  | .batchWrite mapCoins pindex =>
      (.done true, ⟨⟨applyBatch some mapCoins cache.cacheCoins, pindex⟩ :: lower.caches, lower.base⟩)
  | .flush written => flush cache lower written

/-- A call of the cache that has `depth` caches above it. -/
def callAt (request : CoinsCall) (base : View) : Nat → List CCoinsViewCache → CoinsResult × CoinsStack View
  | _, [] => (.done false, ⟨[], base⟩)
  | 0, cache :: below => call cache ⟨below, base⟩ request
  | depth + 1, cache :: below =>
      let (result, lower) := callAt request base depth below
      (result, ⟨cache :: lower.caches, lower.base⟩)

def step (stack : CoinsStack View) (request : Nat × CoinsCall) : CoinsResult × CoinsStack View :=
  callAt request.2 stack.base request.1 stack.caches

def run : CoinsStack View → List (Nat × CoinsCall) → List CoinsResult × CoinsStack View
  | stack, [] => ([], stack)
  | stack, request :: requests =>
      let (result, next) := stack.step request
      let (results, last) := next.run requests
      (result :: results, last)

end CoinsStack

/-! ## The database -/

/-- The records of the chainstate database: coins under `('c', txid)` and the best
block under `'B'`. -/
structure CCoinsViewDB (mapBlockIndex : BlockMap) where
  coins : Std.ExtTreeMap UInt256 Bytes
  hashBestChain : Option UInt256

namespace CCoinsViewDB

variable {mapBlockIndex : BlockMap}

/-- BatchWriteCoins erases what is fully spent. -/
def batchWriteCoins [PubKeys] (coins : CCoins) : Option Bytes :=
  if coins.isPruned then none else some coins.serialize

instance [PubKeys] : BackingView (CCoinsViewDB mapBlockIndex) where
  getCoins db txid := db.coins[txid]?.bind fun record => (CCoins.unserialize record).map Prod.fst
  getBestBlock db := db.hashBestChain.filter fun hashBestChain => (mapBlockIndex hashBestChain).isSome
  batchWrite db mapCoins pindex :=
    ⟨applyBatch batchWriteCoins mapCoins db.coins, pindex.or db.hashBestChain⟩

end CCoinsViewDB

/-! ## The map that a cache stands for -/

/-- A map from txids to coins in which a pruned entry is absent, and a best block. -/
@[ext] structure FlatCoins where
  coins : UInt256 → Option Entry
  best : Option UInt256

namespace FlatCoins

def under (flat : FlatCoins) (cache : CCoinsViewCache) : FlatCoins where
  coins txid :=
    match cache.cacheCoins[txid]? with
    | some coins => coins.entry
    | none => flat.coins txid
  best := cache.pindexTip.or flat.best

def write (flat : FlatCoins) : CoinsCall → FlatCoins
  | .setCoins txid coins => { flat with coins := Function.update flat.coins txid coins.entry }
  | .setBestBlock pindex => { flat with best := pindex.or flat.best }
  | .batchWrite mapCoins pindex => flat.under ⟨mapCoins, pindex⟩
  | .getCoins _ | .haveCoins _ | .getBestBlock | .flush _ => flat

/-- The maps of the views below the one that is called. A write to the last of
them, the base view, can fail. -/
def flushInto (flat : FlatCoins) : CoinsCall → List FlatCoins → List FlatCoins
  | .flush written, [lower] => if written then [flat] else [lower]
  | .flush _, _ :: rest => flat :: rest
  | _, lower => lower

/-- A call at some depth, on the maps of all views of a stack. Whatever is
written below shows in the views above as well. -/
def callAt (request : CoinsCall) : Nat → List FlatCoins → List FlatCoins
  | _, [] => []
  | 0, flat :: lower => flat.write request :: flat.flushInto request lower
  | depth + 1, flat :: lower => flat.write request :: callAt request depth lower

/-- A result that the map allows; there are views below. A fully spent entry may
still be had. -/
def Allows (flat : FlatCoins) (lower : List FlatCoins) : CoinsCall → CoinsResult → Prop
  | .getCoins txid, .coins found => found.bind CCoins.entry = flat.coins txid
  | .haveCoins txid, .have present => (flat.coins txid).isSome = true → present = true
  | .getBestBlock, .best pindex => pindex = flat.best
  | .flush written, .done fOk => fOk = (written || 1 < lower.length)
  | .setCoins _ _, .done fOk | .setBestBlock _, .done fOk | .batchWrite _ _, .done fOk => fOk = true
  | _, _ => False

def AllowsAt (request : CoinsCall) (result : CoinsResult) : Nat → List FlatCoins → Prop
  | _, [] => False
  | 0, flat :: lower => flat.Allows lower request result
  | depth + 1, _ :: lower => AllowsAt request result depth lower

/-- The results of a whole run, on one map for each view. -/
def AllowsRun : List FlatCoins → List (Nat × CoinsCall) → List CoinsResult → Prop
  | _, [], [] => True
  | flats, request :: requests, result :: results =>
      AllowsAt request.2 result request.1 flats ∧ AllowsRun (callAt request.2 request.1 flats) requests results
  | _, _, _ => False

end FlatCoins

end BitCrystal
